import Tewta.Node.Requests

/-!
# What every request keeps

`Request.Sound` is what holds of a request at every time, whatever the others and the
rest of the node do: how far it is with listening and sending, that its receiver has
exactly the events it should have, and that the answer it has accepted is one.
`AskInv` says it of all requests, and that no two share a receiver.
-/

namespace Tewta

open Broadcast NodeState Transition

/-- How far a request is with listening and sending, and which came first. -/
inductive Request.Course (req : Request) : Prop
  | start (todo : req.todo = req.question.actions) (listening : req.listening = none)
      (sent : req.sent = none)
  | listened {x : Listening} (first : req.question.actions = [.listen, .send])
      (todo : req.todo = [.send]) (listening : req.listening = some x) (sent : req.sent = none)
  | sent {w : Sent} (first : req.question.actions = [.send, .listen]) (todo : req.todo = [.listen])
      (listening : req.listening = none) (sent : req.sent = some w)
  | done {x : Listening} {w : Sent} (todo : req.todo = []) (listening : req.listening = some x)
      (sent : req.sent = some w)
      (order : req.question.actions = [.listen, .send] ∧ x.after ≤ w.after ∨
        req.question.actions = [.send, .listen] ∧ w.after ≤ x.after)

theorem Question.actions_cases (question : Question) :
    question.actions = [.listen, .send] ∨ question.actions = [.send, .listen] := by
  cases question with
  | ping => exact Or.inr rfl
  | findDhtValue key => exact Or.inl rfl
  | discoverPeers target mask => exact Or.inl rfl

/-- Who does not ping listens first. -/
theorem Question.actions_of_topic {question : Question} (h : question.topic ≠ .pong) :
    question.actions = [.listen, .send] := by
  cases question with
  | ping => exact absurd rfl h
  | findDhtValue key => rfl
  | discoverPeers target mask => rfl

theorem Request.answered_ne_asking (req : Request) (event : PacketEvent) :
    req.answered event ≠ .asking := by
  rw [answered]
  split
  · simp
  · split <;> simp

theorem Request.eq_of_answered (req : Request) {event e : PacketEvent}
    (h : (req.answered event).answer? = some e) : event = e := by
  rw [answered] at h
  split at h
  · exact Option.some.inj h
  · split at h <;> exact Option.some.inj h

theorem Request.gaveUp_ne_asking (req : Request) : req.gaveUp ≠ .asking := by
  rw [gaveUp]
  split <;> simp

theorem Request.answer?_gaveUp (req : Request) : req.gaveUp.answer? = none := by
  rw [gaveUp]
  split <;> rfl

/-- What holds of a request, with the events fired so far, the listeners of its topic and
the ids handed out. -/
structure Request.Sound (fired : List (PeerID × Packet)) (l : Listeners PacketEvent) (counter : ℕ)
    (req : Request) : Prop where
  ticket : req.ticket < counter
  course : req.Course
  receiver : ∀ x, req.listening = some x → x.receiver < l.next ∧ x.after ≤ fired.length
  sentAfter : ∀ w, req.sent = some w → w.after ≤ fired.length
  isOpen : req.phase.listens = true → ∀ x, req.listening = some x → l.isOpen x.receiver = true
  queued : ∀ x, req.listening = some x → ∀ e ∈ l.queue x.receiver,
    fired[e.number]? = some (e.peerId, e.packet) ∧ x.after ≤ e.number
  complete : req.phase = .asking → ∀ x, req.listening = some x → ∀ j p, x.after ≤ j →
    fired[j]? = some (req.peerId, p) → req.topic.idOf p = some req.id →
      ⟨j, req.peerId, p⟩ ∈ l.queue x.receiver
  answer : ∀ e, req.phase.answer? = some e →
    req.Answers e ∧ fired[e.number]? = some (e.peerId, e.packet)

namespace Request.Sound

variable {fired : List (PeerID × Packet)} {l l' : Listeners PacketEvent} {counter counter' : ℕ}
  {req : Request}

theorem congr (h : req.Sound fired l counter) (hnext : l.next ≤ l'.next)
    (hcounter : counter ≤ counter')
    (hreceiver : ∀ x, req.listening = some x →
      l'.queue x.receiver = l.queue x.receiver ∧ l'.isOpen x.receiver = l.isOpen x.receiver) :
    req.Sound fired l' counter' := by
  refine ⟨lt_of_lt_of_le h.ticket hcounter, h.course, fun x hx => ?_, h.sentAfter,
    fun hlistens x hx => ?_, fun x hx => ?_, fun hasking x hx => ?_, h.answer⟩
  · exact ⟨lt_of_lt_of_le (h.receiver x hx).1 hnext, (h.receiver x hx).2⟩
  · rw [(hreceiver x hx).2]
    exact h.isOpen hlistens x hx
  · rw [(hreceiver x hx).1]
    exact h.queued x hx
  · rw [(hreceiver x hx).1]
    exact h.complete hasking x hx

theorem getElem?_append {T : Type} {fired : List T} {new : T} {j : ℕ} {e : T}
    (h : fired[j]? = some e) : (fired ++ [new])[j]? = some e :=
  (List.getElem?_append_left (List.getElem?_eq_some_iff.mp h).1).trans h

theorem fire (h : req.Sound fired l counter) (n : PeerID) (p : Packet)
    (hl : l' = if (req.topic.idOf p).isSome then l.event ⟨fired.length, n, p⟩ else l) :
    req.Sound (fired ++ [(n, p)]) l' counter := by
  have hnext : l'.next = l.next := by
    rw [hl]
    split
    · exact l.next_event _
    · rfl
  have hopen : l'.isOpen = l.isOpen := by
    rw [hl]
    split
    · exact l.isOpen_event _
    · rfl
  have hqueue : ∀ rc, l'.queue rc = l.queue rc ∨
      l'.queue rc = l.queue rc ++ [⟨fired.length, n, p⟩] := by
    intro rc
    rw [hl]
    split
    · rw [Listeners.queue_event]
      split
      · exact Or.inr rfl
      · exact Or.inl rfl
    · exact Or.inl rfl
  have hlength : (fired ++ [(n, p)]).length = fired.length + 1 := by
    rw [List.length_append, List.length_singleton]
  refine ⟨h.ticket, h.course, fun x hx => ?_, fun w hw => ?_, fun hlistens x hx => ?_,
    fun x hx e he => ?_, fun hasking x hx j q hj hfired hid => ?_, fun e he => ?_⟩
  · obtain ⟨hlt, hle⟩ := h.receiver x hx
    exact ⟨hnext ▸ hlt, by omega⟩
  · have hle := h.sentAfter w hw
    omega
  · rw [hopen]
    exact h.isOpen hlistens x hx
  · have hold : e ∈ l.queue x.receiver →
        (fired ++ [(n, p)])[e.number]? = some (e.peerId, e.packet) ∧ x.after ≤ e.number :=
      fun hmem => ⟨getElem?_append (h.queued x hx e hmem).1, (h.queued x hx e hmem).2⟩
    rcases hqueue x.receiver with heq | heq
    · rw [heq] at he
      exact hold he
    · rw [heq, List.mem_append, List.mem_singleton] at he
      rcases he with he | rfl
      · exact hold he
      · exact ⟨List.getElem?_concat_length, (h.receiver x hx).2⟩
  · by_cases hlast : j = fired.length
    · -- the event that has just been fired
      subst hlast
      rw [List.getElem?_concat_length, Option.some.injEq, Prod.mk.injEq] at hfired
      obtain ⟨rfl, rfl⟩ := hfired
      have hlistens : req.phase.listens = true := by rw [hasking]; rfl
      have hsome : (req.topic.idOf p).isSome = true := by rw [hid]; rfl
      rw [hl, if_pos hsome, Listeners.queue_event, if_pos (h.isOpen hlistens x hx)]
      exact List.mem_append_right _ (List.mem_singleton_self _)
    · have hlt : j < fired.length := by
        have hlt' := (List.getElem?_eq_some_iff.mp hfired).1
        omega
      rw [List.getElem?_append_left hlt] at hfired
      have hmem := h.complete hasking x hx j q hj hfired hid
      rcases hqueue x.receiver with heq | heq
      · rw [heq]
        exact hmem
      · rw [heq]
        exact List.mem_append_left _ hmem
  · exact ⟨(h.answer e he).1, getElem?_append (h.answer e he).2⟩

theorem setPhase (h : req.Sound fired l counter) {phase : Phase} {timedOut : Option ℕ}
    (hqueue : ∀ rc, ∀ e ∈ l'.queue rc, e ∈ l.queue rc) (hnext : l'.next = l.next)
    (hopen : phase.listens = true → l'.isOpen = l.isOpen ∧ req.phase.listens = true)
    (hphase : phase ≠ .asking)
    (hanswer : ∀ e, phase.answer? = some e →
      req.Answers e ∧ fired[e.number]? = some (e.peerId, e.packet)) :
    Request.Sound fired l' counter { req with phase, timedOut } := by
  have hcourse : Request.Course { req with phase, timedOut } := by
    cases h.course with
    | start todo listening sent => exact .start todo listening sent
    | listened first todo listening sent => exact .listened first todo listening sent
    | sent first todo listening sent => exact .sent first todo listening sent
    | done todo listening sent order => exact .done todo listening sent order
  refine ⟨h.ticket, hcourse, fun x hx => ?_, h.sentAfter, fun hlistens x hx => ?_,
    fun x hx e he => ?_, fun hasking => absurd hasking hphase, hanswer⟩
  · rw [hnext]
    exact h.receiver x hx
  · rw [(hopen hlistens).1]
    exact h.isOpen (hopen hlistens).2 x hx
  · exact h.queued x hx e (hqueue _ e he)

end Request.Sound

/-! ### All requests -/

structure AskInv (s : AskState) : Prop where
  sound : ∀ r req, s.requests r = some req →
    req.Sound s.node.fired (s.listeners req.topic) (s.counters req.topic)
  apart : ∀ r r' req req' x x', r ≠ r' → s.requests r = some req → s.requests r' = some req' →
    req.topic = req'.topic → req.listening = some x → req'.listening = some x' →
      x.receiver ≠ x'.receiver

/-- A task has taken a step of its own: its own request may have changed, and with the
listeners nothing has happened to the receivers of others. -/
structure OwnTurn (s s' : AskState) (r : ℕ) (req req' : Request) : Prop where
  before : s.requests r = some req
  requests : s'.requests = Function.update s.requests r (some req')
  fired : s'.node.fired = s.node.fired
  counters : s'.counters = s.counters
  topic : req'.topic = req.topic
  next : ∀ topic, (s.listeners topic).next ≤ (s'.listeners topic).next
  others : ∀ topic rc, rc < (s.listeners topic).next →
    (topic = req.topic → ∀ x, req.listening = some x → rc ≠ x.receiver) →
      (s'.listeners topic).queue rc = (s.listeners topic).queue rc ∧
        (s'.listeners topic).isOpen rc = (s.listeners topic).isOpen rc
  listening : ∀ x, req'.listening = some x →
    req.listening = some x ∨ x.receiver = (s.listeners req.topic).next

namespace AskInv

variable {codec : Codec Bytes} {s s' : AskState}

theorem init (ourPeerId : PeerID) : AskInv (AskState.init ourPeerId) where
  sound r req h := by cases h
  apart r r' req req' x x' _ h := by cases h

theorem ownTurn (inv : AskInv s) {r : ℕ} {req req' : Request} (h : OwnTurn s s' r req req')
    (hsound : req'.Sound s.node.fired (s'.listeners req.topic) (s.counters req.topic)) :
    AskInv s' := by
  have hold := inv.sound r req h.before
  have hne : ∀ r₁ req₁ x₁ x, r₁ ≠ r → s.requests r₁ = some req₁ → req₁.listening = some x₁ →
      req₁.topic = req.topic → req'.listening = some x → x₁.receiver ≠ x.receiver := by
    intro r₁ req₁ x₁ x hr₁ hreq₁ hx₁ htopic hx
    rcases h.listening x hx with hx | hx
    · exact inv.apart r₁ r req₁ req x₁ x hr₁ hreq₁ h.before htopic hx₁ hx
    · have hlt := ((inv.sound r₁ req₁ hreq₁).receiver x₁ hx₁).1
      rw [htopic] at hlt
      omega
  constructor
  · intro r₁ req₁ hreq₁
    rw [h.requests] at hreq₁
    rw [h.fired, h.counters]
    rcases update_eq_cases hreq₁ with ⟨-, heq⟩ | ⟨hr₁, hreq₁⟩
    · obtain rfl := Option.some.inj heq
      rw [h.topic]
      exact hsound
    · refine (inv.sound r₁ req₁ hreq₁).congr (h.next _) le_rfl fun x₁ hx₁ => ?_
      refine h.others _ _ ((inv.sound r₁ req₁ hreq₁).receiver x₁ hx₁).1 fun htopic x hx => ?_
      exact inv.apart r₁ r req₁ req x₁ x hr₁ hreq₁ h.before htopic hx₁ hx
  · intro r₁ r₂ req₁ req₂ x₁ x₂ hr hreq₁ hreq₂ htopic hx₁ hx₂
    rw [h.requests] at hreq₁ hreq₂
    rcases update_eq_cases hreq₁ with ⟨hr₁, heq₁⟩ | ⟨hr₁, hold₁⟩
    · obtain rfl := Option.some.inj heq₁
      rcases update_eq_cases hreq₂ with ⟨hr₂, -⟩ | ⟨hr₂, hold₂⟩
      · exact absurd (hr₁.trans hr₂.symm) hr
      · exact (hne r₂ req₂ x₂ x₁ hr₂ hold₂ hx₂ (htopic.symm.trans h.topic) hx₁).symm
    · rcases update_eq_cases hreq₂ with ⟨-, heq₂⟩ | ⟨-, hold₂⟩
      · obtain rfl := Option.some.inj heq₂
        exact hne r₁ req₁ x₁ x₂ hr₁ hold₁ hx₁ (htopic.trans h.topic) hx₂
      · exact inv.apart r₁ r₂ req₁ req₂ x₁ x₂ hr hold₁ hold₂ htopic hx₁ hx₂

theorem setNode (inv : AskInv s) {node : NodeState} (h : node.fired = s.node.fired) :
    AskInv { s with node } := by
  refine ⟨fun r req hr => ?_, inv.apart⟩
  have hsound := inv.sound r req hr
  rw [← h] at hsound
  exact hsound

theorem afterNode (inv : AskInv s) {node : NodeState} {l : NodeLabel}
    (h : s.node.step codec l = some node) : AskInv (s.afterNode node) := by
  rcases fired_step h with heq | ⟨t, n, stream, p, -, heq⟩
  · rw [AskState.afterNode_of_eq heq]
    exact inv.setNode heq
  · rw [AskState.afterNode_of_append heq]
    refine ⟨fun r req hr => ?_, inv.apart⟩
    have hfire := (inv.sound r req hr).fire n p rfl
    rw [← heq] at hfire
    exact hfire

theorem ask (inv : AskInv s) {r : ℕ} {question : Question} {peerId : PeerID} {closes : Bool} :
    AskInv ({ s with
        counters := Function.update s.counters question.topic (s.counters question.topic + 1)
      }.setRequest r
      { question, peerId, closes, ticket := s.counters question.topic, todo := question.actions,
        listening := none, sent := none, timedOut := none, phase := .asking }) := by
  have hcounter : ∀ topic, s.counters topic ≤
      Function.update s.counters question.topic (s.counters question.topic + 1) topic := by
    intro topic
    by_cases heq : topic = question.topic
    · subst heq
      rw [Function.update_self]
      exact Nat.le_succ _
    · rw [Function.update_of_ne heq]
  constructor
  · intro r' req hr'
    rcases update_eq_cases hr' with ⟨-, heq⟩ | ⟨-, hr'⟩
    · obtain rfl := Option.some.inj heq
      refine ⟨?_, .start rfl rfl rfl, ?_, ?_, ?_, ?_, ?_, ?_⟩
      · show s.counters question.topic <
          Function.update s.counters question.topic (s.counters question.topic + 1) question.topic
        rw [Function.update_self]
        exact Nat.lt_succ_self _
      · intro x hx
        cases hx
      · intro w hw
        cases hw
      · intro _ x hx
        cases hx
      · intro x hx
        cases hx
      · intro _ x hx
        cases hx
      · intro e he
        cases he
    · exact (inv.sound r' req hr').congr le_rfl (hcounter _) fun x _ => ⟨rfl, rfl⟩
  · intro r₁ r₂ req₁ req₂ x₁ x₂ hr hreq₁ hreq₂ htopic hx₁ hx₂
    rcases update_eq_cases hreq₁ with ⟨-, heq₁⟩ | ⟨-, hreq₁⟩
    · obtain rfl := Option.some.inj heq₁
      cases hx₁
    · rcases update_eq_cases hreq₂ with ⟨-, heq₂⟩ | ⟨-, hreq₂⟩
      · obtain rfl := Option.some.inj heq₂
        cases hx₂
      · exact inv.apart r₁ r₂ req₁ req₂ x₁ x₂ hr hreq₁ hreq₂ htopic hx₁ hx₂

theorem listen (inv : AskInv s) {r : ℕ} {req : Request} {todo : List AskAction}
    (hr : s.requests r = some req) (htodo : req.todo = .listen :: todo) :
    AskInv ((s.setListeners req.topic (s.listeners req.topic).listen).setRequest r
      { req with todo, listening := some ⟨(s.listeners req.topic).next, s.node.fired.length⟩ }) := by
  have hold := inv.sound r req hr
  have hself : Function.update s.listeners req.topic (s.listeners req.topic).listen req.topic =
      (s.listeners req.topic).listen := Function.update_self _ _ _
  have hcourse : Request.Course { req with
      todo, listening := some ⟨(s.listeners req.topic).next, s.node.fired.length⟩ } := by
    cases hold.course with
    | start htodo' _ hsent =>
      rw [htodo] at htodo'
      rcases req.question.actions_cases with hactions | hactions
      · rw [hactions] at htodo'
        exact .listened hactions (List.cons.inj htodo').2 rfl hsent
      · rw [hactions] at htodo'
        cases htodo'
    | listened _ htodo' =>
      rw [htodo] at htodo'
      cases htodo'
    | @sent w hactions htodo' _ hsent =>
      rw [htodo] at htodo'
      exact .done (List.cons.inj htodo').2 rfl hsent (Or.inr ⟨hactions, hold.sentAfter w hsent⟩)
    | done htodo' =>
      rw [htodo] at htodo'
      cases htodo'
  refine inv.ownTurn ⟨hr, rfl, rfl, rfl, rfl, fun topic => ?_, fun topic rc hlt _ => ?_,
    fun x hx => ?_⟩ ?_
  · by_cases heq : topic = req.topic
    · subst heq
      exact (Nat.le_succ _).trans_eq (congrArg Listeners.next hself.symm)
    · exact (congrArg Listeners.next (Function.update_of_ne heq _ _)).ge
  · by_cases heq : topic = req.topic
    · subst heq
      have hne : rc ≠ (s.listeners req.topic).next := Nat.ne_of_lt hlt
      constructor
      · exact (congrArg (fun l => Listeners.queue l rc) hself).trans (Function.update_of_ne hne _ _)
      · exact (congrArg (fun l => Listeners.isOpen l rc) hself).trans (Function.update_of_ne hne _ _)
    · have hsame : Function.update s.listeners req.topic (s.listeners req.topic).listen topic =
          s.listeners topic := Function.update_of_ne heq _ _
      exact ⟨congrArg (fun l => Listeners.queue l rc) hsame,
        congrArg (fun l => Listeners.isOpen l rc) hsame⟩
  · cases hx
    exact Or.inr rfl
  · have hempty : (s.listeners req.topic).listen.queue (s.listeners req.topic).next = [] :=
      Function.update_self _ _ _
    have hopen : (s.listeners req.topic).listen.isOpen (s.listeners req.topic).next = true :=
      Function.update_self _ _ _
    show Request.Sound _ (Function.update s.listeners req.topic _ req.topic) _ _
    rw [hself]
    refine ⟨hold.ticket, hcourse, fun x hx => ?_, hold.sentAfter, fun _ x hx => ?_,
      fun x hx e he => ?_, fun _ x hx j p hj hfired => ?_, hold.answer⟩
    · cases hx
      exact ⟨Nat.lt_succ_self _, le_rfl⟩
    · cases hx
      exact hopen
    · cases hx
      rw [hempty] at he
      cases he
    · cases hx
      have hlt := (List.getElem?_eq_some_iff.mp hfired).1
      exact absurd hj (Nat.not_le.mpr hlt)

theorem send (inv : AskInv s) {r : ℕ} {req : Request} {todo : List AskAction} {node : NodeState}
    {stream : Option StreamId} (hr : s.requests r = some req) (htodo : req.todo = .send :: todo)
    (hnode : node.fired = s.node.fired) :
    AskInv ({ s with node }.setRequest r
      { req with todo, sent := some ⟨s.node.fired.length, stream⟩ }) := by
  have hold := inv.sound r req hr
  have hcourse : Request.Course { req with
      todo, sent := some ⟨s.node.fired.length, stream⟩ } := by
    cases hold.course with
    | start htodo' hlistening _ =>
      rw [htodo] at htodo'
      rcases req.question.actions_cases with hactions | hactions
      · rw [hactions] at htodo'
        cases htodo'
      · rw [hactions] at htodo'
        exact .sent hactions (List.cons.inj htodo').2 hlistening rfl
    | @listened x hactions htodo' hlistening _ =>
      rw [htodo] at htodo'
      exact .done (List.cons.inj htodo').2 hlistening rfl
        (Or.inl ⟨hactions, (hold.receiver x hlistening).2⟩)
    | sent _ htodo' =>
      rw [htodo] at htodo'
      cases htodo'
    | done htodo' =>
      rw [htodo] at htodo'
      cases htodo'
  refine inv.ownTurn ⟨hr, rfl, hnode, rfl, rfl, fun _ => le_rfl, fun _ _ _ _ => ⟨rfl, rfl⟩,
    fun x hx => Or.inl hx⟩ ?_
  refine ⟨hold.ticket, hcourse, hold.receiver, fun w hw => ?_, hold.isOpen, hold.queued,
    hold.complete, hold.answer⟩
  cases hw
  exact le_rfl

/-- What waits at a receiver has become less. -/
structure Popped (s s' : AskState) (req : Request) : Prop where
  requests : s'.requests = s.requests
  fired : s'.node.fired = s.node.fired
  counters : s'.counters = s.counters
  next : ∀ topic, (s'.listeners topic).next = (s.listeners topic).next
  isOpen : ∀ topic, (s'.listeners topic).isOpen = (s.listeners topic).isOpen
  subset : ∀ topic rc, ∀ e ∈ (s'.listeners topic).queue rc, e ∈ (s.listeners topic).queue rc
  others : ∀ topic rc, (topic = req.topic → ∀ x, req.listening = some x → rc ≠ x.receiver) →
    (s'.listeners topic).queue rc = (s.listeners topic).queue rc

theorem Popped.setNode (req : Request) {node : NodeState} (h : node.fired = s.node.fired) :
    Popped s { s with node } req :=
  ⟨rfl, h, rfl, fun _ => rfl, fun _ => rfl, fun _ _ _ he => he, fun _ _ _ => rfl⟩

theorem Popped.recv {req : Request} {x : Listening} {event : PacketEvent} {rest : List PacketEvent}
    (hx : req.listening = some x)
    (hqueue : (s.listeners req.topic).queue x.receiver = event :: rest) :
    Popped s (s.setListeners req.topic { s.listeners req.topic with
      queue := Function.update (s.listeners req.topic).queue x.receiver rest }) req := by
  let l : Listeners PacketEvent := { s.listeners req.topic with
    queue := Function.update (s.listeners req.topic).queue x.receiver rest }
  have hcases : ∀ topic, topic = req.topic ∧
      (s.setListeners req.topic l).listeners topic = l ∨
      (s.setListeners req.topic l).listeners topic = s.listeners topic := by
    intro topic
    by_cases heq : topic = req.topic
    · subst heq
      exact Or.inl ⟨rfl, Function.update_self _ _ _⟩
    · exact Or.inr (Function.update_of_ne heq _ _)
  refine ⟨rfl, rfl, rfl, fun topic => ?_, fun topic => ?_, fun topic rc e he => ?_,
    fun topic rc hne => ?_⟩
  · rcases hcases topic with ⟨rfl, heq⟩ | heq <;> rw [heq]
  · rcases hcases topic with ⟨rfl, heq⟩ | heq <;> rw [heq]
  · rcases hcases topic with ⟨rfl, heq⟩ | heq
    · rw [heq] at he
      by_cases hrc : rc = x.receiver
      · subst hrc
        have hrest : l.queue x.receiver = rest := Function.update_self _ _ _
        rw [hrest] at he
        rw [hqueue]
        exact List.mem_cons_of_mem _ he
      · have hsame : l.queue rc = (s.listeners req.topic).queue rc := Function.update_of_ne hrc _ _
        rw [hsame] at he
        exact he
    · rw [heq] at he
      exact he
  · rcases hcases topic with ⟨rfl, heq⟩ | heq
    · rw [heq]
      exact Function.update_of_ne (hne rfl x hx) _ _
    · rw [heq]

theorem ignore (inv : AskInv s) {r : ℕ} {req : Request} {x : Listening} {event : PacketEvent}
    {rest : List PacketEvent} (hr : s.requests r = some req) (hx : req.listening = some x)
    (hqueue : (s.listeners req.topic).queue x.receiver = event :: rest)
    (hanswers : ¬ req.Answers event) :
    AskInv (s.setListeners req.topic { s.listeners req.topic with
      queue := Function.update (s.listeners req.topic).queue x.receiver rest }) := by
  have hold := inv.sound r req hr
  have hpop : Popped s _ req := .recv hx hqueue
  have hself : (s.setListeners req.topic { s.listeners req.topic with
      queue := Function.update (s.listeners req.topic).queue x.receiver rest }).listeners req.topic =
        { s.listeners req.topic with
          queue := Function.update (s.listeners req.topic).queue x.receiver rest } :=
    Function.update_self _ _ _
  refine inv.ownTurn ⟨hr, (Function.update_eq_self_iff.mpr hr.symm).symm, rfl, rfl, rfl,
    fun topic => (hpop.next topic).ge, fun topic rc _ hne => ⟨hpop.others topic rc hne, ?_⟩,
    fun x hx => Or.inl hx⟩ ?_
  · rw [hpop.isOpen]
  · refine ⟨hold.ticket, hold.course, fun x' hx' => ?_, hold.sentAfter, fun hlistens x' hx' => ?_,
      fun x' hx' e he => ?_, fun hasking x' hx' j p hj hfired hid => ?_, hold.answer⟩
    · rw [hpop.next]
      exact hold.receiver x' hx'
    · rw [hpop.isOpen]
      exact hold.isOpen hlistens x' hx'
    · exact hold.queued x' hx' e (hpop.subset _ _ e he)
    · have hmem := hold.complete hasking x' hx' j p hj hfired hid
      obtain rfl : x = x' := Option.some.inj (hx.symm.trans hx')
      rw [hqueue, List.mem_cons] at hmem
      rw [hself]
      have hrest : Function.update (s.listeners req.topic).queue x.receiver rest x.receiver =
          rest := Function.update_self _ _ _
      refine (congrArg (fun q => (⟨j, req.peerId, p⟩ : PacketEvent) ∈ q) hrest).mpr ?_
      rcases hmem with rfl | hmem
      · exact absurd ⟨rfl, hid⟩ hanswers
      · exact hmem

theorem setPhase (inv : AskInv s) {r : ℕ} {req : Request} {phase : Phase} {timedOut : Option ℕ}
    (hr : s.requests r = some req) (hpop : Popped s s' req) (hphase : phase ≠ .asking)
    (hlistens : phase.listens = true → req.phase.listens = true)
    (hanswer : ∀ e, phase.answer? = some e →
      req.Answers e ∧ s.node.fired[e.number]? = some (e.peerId, e.packet)) :
    AskInv (s'.setPhase r { req with timedOut } phase) := by
  have hdrop : ∀ topic, (s'.setPhase r { req with timedOut } phase).listeners topic =
        s'.listeners topic ∨
      topic = req.topic ∧ phase.listens = false ∧ ∃ x, req.listening = some x ∧
        (s'.setPhase r { req with timedOut } phase).listeners topic =
          (s'.listeners topic).drop x.receiver := fun topic => AskState.listeners_setPhase topic
  have hturn : OwnTurn s (s'.setPhase r { req with timedOut } phase) r req
      { req with phase, timedOut } := by
    refine ⟨hr, ?_, ?_, ?_, rfl, fun topic => ?_, fun topic rc _ hne => ⟨?_, ?_⟩,
      fun x hx => Or.inl hx⟩
    · exact AskState.requests_setPhase.trans (by rw [hpop.requests])
    · rw [AskState.node_setPhase, hpop.fired]
    · rw [AskState.counters_setPhase, hpop.counters]
    · rw [AskState.next_setPhase, hpop.next]
    · rw [AskState.queue_setPhase]
      exact hpop.others topic rc hne
    · rcases hdrop topic with heq | ⟨htopic, -, x, hx, heq⟩
      · rw [heq, hpop.isOpen]
      · rw [heq]
        exact (Function.update_of_ne (hne htopic x hx) _ _).trans (by rw [hpop.isOpen])
  refine inv.ownTurn hturn ?_
  refine (inv.sound r req hr).setPhase (fun rc e he => ?_) ?_ (fun hl => ⟨?_, hlistens hl⟩)
    hphase hanswer
  · rw [AskState.queue_setPhase] at he
    exact hpop.subset _ rc e he
  · rw [AskState.next_setPhase, hpop.next]
  · rcases hdrop req.topic with heq | ⟨-, hfalse, -⟩
    · rw [heq, hpop.isOpen]
    · rw [hl] at hfalse
      cases hfalse

theorem step (inv : AskInv s) {l : AskLabel} (h : s.step codec l = some s') : AskInv s' := by
  cases AskState.step_cases h with
  | node hnode => exact inv.afterNode hnode
  | ask => exact inv.ask
  | listen hr _ htodo => exact inv.listen hr htodo
  | send hr _ htodo hnode => exact inv.send hr htodo (fired_sendPacket hnode)
  | ignore hr _ _ hx hqueue hanswers => exact inv.ignore hr hx hqueue hanswers
  | @accept r req x event rest writes hr hasking _ hx hqueue hanswers =>
    have hmem : event ∈ (s.listeners req.topic).queue x.receiver := by
      rw [hqueue]
      exact List.mem_cons_self
    refine inv.setPhase hr (.recv hx hqueue) (req.answered_ne_asking event)
      (fun _ => by rw [hasking]; rfl) fun e he => ?_
    obtain rfl := req.eq_of_answered he
    exact ⟨hanswers, ((inv.sound r req hr).queued x hx event hmem).1⟩
  | @close r req answer stage node next writes hr hphase hsec =>
    have hkeep : ∀ phase : Phase, phase.answer? = answer →
        ∀ e, phase.answer? = some e →
          req.Answers e ∧ s.node.fired[e.number]? = some (e.peerId, e.packet) := by
      intro phase heq e he
      refine (inv.sound r req hr).answer e ?_
      rw [hphase]
      exact heq.symm.trans he
    refine inv.setPhase hr (.setNode req (fired_disconnectSection hsec)) ?_ ?_ ?_
    · cases next <;> simp
    · rw [hphase]
      cases next with
      | none => simp [Phase.listens]
      | some stage => cases answer <;> simp [Phase.listens]
    · cases next with
      | none => exact hkeep _ rfl
      | some stage => exact hkeep _ rfl
  | fail hr _ hphase _ =>
    refine inv.setPhase hr (.setNode _ rfl) ?_ ?_ ?_
    · rcases hphase with rfl | rfl <;> simp
    · rcases hphase with rfl | rfl <;> simp [Phase.listens]
    · rcases hphase with rfl | rfl <;> simp [Phase.answer?]
  | @timeout r req x hr _ hasking =>
    refine inv.setPhase hr (.setNode _ rfl) req.gaveUp_ne_asking ?_ fun e he => ?_
    · rw [Request.gaveUp]
      split <;> simp [Phase.listens]
    · rw [req.answer?_gaveUp] at he
      cases he

/-- **In every run** the requests are sound. -/
theorem exec {ourPeerId : PeerID} {labels : List AskLabel}
    (hrun : Transition.exec (AskState.step codec) (.init ourPeerId) labels = some s) : AskInv s :=
  invariant_of_exec (fun _ _ _ inv h => inv.step h) hrun (.init ourPeerId)

end AskInv

end Tewta
