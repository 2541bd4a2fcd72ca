import Tewta.Lib.Broadcast
import Tewta.Lib.Transition

/-!
# Event listeners

`EventListeners` has its list of senders behind a mutex.  `event` holds the lock from its
first send to its last, and `listen` takes it to push a sender.  Meanwhile the receivers are
elsewhere: they take what waits at them and go away when they like, also between two sends
of one event.  So each send is a step of its own here.
-/

namespace Tewta

open Broadcast Transition

variable {α : Type}

/-- Where `event` stands: in its loop, before the send to the `i`-th sender; after the loop;
or at its end.  An index out of bounds is a panic. -/
inductive EventStage
  | loop (i : ℕ)
  | first
  | ended
  | panicked
  deriving DecidableEq

/-- A call of `event` that has the lock.  `before` is the list of senders that it found, and
`sends` has what it has sent so far, with the outcomes. -/
structure EventCall (α : Type) where
  event : α
  stage : EventStage
  before : List ℕ
  sends : List (ℕ × Bool)

/-- The listeners, with what is going on around them: `fired` are all events, `since` is how
many there were when a receiver was handed out, and `taken` is what it has received. -/
structure EventListeners (α : Type) where
  listeners : Listeners α
  lock : Option (EventCall α)
  fired : List α
  since : ℕ → ℕ
  taken : ℕ → List α

inductive EventLabel (α : Type)
  /-- `listen` runs -/
  | listen
  /-- `event` gets the lock -/
  | event (event : α)
  /-- it makes its next send, or lets go of the lock -/
  | send
  /-- a receiver takes what waits first -/
  | recv (r : ℕ)
  /-- a receiver is dropped -/
  | drop (r : ℕ)

namespace EventListeners

/-- `EventListeners::default` -/
def new : EventListeners α where
  listeners := .empty
  lock := none
  fired := []
  since _ := 0
  taken _ := []

/-- The call sends to the `i`-th sender, and goes on. -/
def sendTo (s : EventListeners α) (call : EventCall α) (i r : ℕ) (stage : EventStage) :
    EventListeners α :=
  { s with
    listeners := s.listeners.send call.event i
    lock := some { call with stage, sends := call.sends ++ [(r, s.listeners.isOpen r)] } }

def step (s : EventListeners α) : EventLabel α → Option (EventListeners α)
  | .listen =>
    match s.lock with
    | none =>
      some { s with
        listeners := s.listeners.listen
        since := Function.update s.since s.listeners.next s.fired.length
        taken := Function.update s.taken s.listeners.next [] }
    | some _ => none
  | .event event =>
    match s.lock with
    | none =>
      some { s with
        lock := some
          { event := event
            stage :=
              if 1 < s.listeners.senders.length then .loop (s.listeners.senders.length - 1)
              else .first
            before := s.listeners.senders
            sends := [] }
        fired := s.fired ++ [event] }
    | some _ => none
  | .send =>
    match s.lock with
    | some call =>
      match call.stage with
      | .loop i =>
        match s.listeners.senders[i]? with
        | some r => some (s.sendTo call i r (if i ≤ 1 then .first else .loop (i - 1)))
        | none => some { s with lock := some { call with stage := .panicked } }
      | .first =>
        match s.listeners.senders[0]? with
        | some r => some (s.sendTo call 0 r .ended)
        | none => some { s with lock := some { call with stage := .ended } }
      | .ended => some { s with lock := none }
      | .panicked => none
    | none => none
  | .recv r =>
    if s.listeners.isOpen r then
      (s.listeners.recv r).map fun received =>
        { s with
          listeners := received.2
          taken := Function.update s.taken r (s.taken r ++ [received.1]) }
    else none
  | .drop r =>
    if s.listeners.isOpen r then some { s with listeners := s.listeners.drop r } else none

/-- What the call that has the lock has yet to send to a receiver. -/
def onItsWay (s : EventListeners α) (r : ℕ) : List α :=
  match s.lock with
  | some call => if r ∈ call.before ∧ r ∉ call.sends.map Prod.fst then [call.event] else []
  | none => []

end EventListeners

/-! ### One event -/

/-- Which senders are left to a call. -/
def EventStage.Left : EventStage → List ℕ → List ℕ → Prop
  | .loop i, todo, _ => todo.length = i + 1 ∧ 1 ≤ i
  | .first, todo, past => todo.length = 1 ∨ todo = [] ∧ past = []
  | .ended, todo, _ => todo = []
  | .panicked, _, _ => False

/-- A call has been to the last of the senders, and has taken out those that failed. -/
structure EventCall.Partway (call : EventCall α) (senders todo past : List ℕ) : Prop where
  nodup : call.before.Nodup
  before : call.before = todo ++ past
  left : call.stage.Left todo past
  kept : senders = todo ++ past.filter fun r => (r, false) ∉ call.sends
  sends : call.sends.map Prod.fst = past.reverse

namespace EventCall.Partway

variable {call : EventCall α} {senders todo past : List ℕ}

theorem not_mem_past (h : call.Partway senders todo past) {r : ℕ} (hr : r ∈ todo) : r ∉ past := by
  have hnodup := h.nodup
  rw [h.before, List.nodup_append'] at hnodup
  exact fun hr' => hnodup.2.2 hr hr'

theorem last_not_mem {first : List ℕ} {r : ℕ} (h : call.Partway senders (first ++ [r]) past) :
    r ∉ first := by
  have hnodup := h.nodup
  rw [h.before, List.nodup_append', List.nodup_append'] at hnodup
  exact fun hr => hnodup.1.2.2 hr (List.mem_singleton_self r)

theorem mem_past_iff (h : call.Partway senders todo past) {r : ℕ} :
    r ∈ past ↔ r ∈ call.sends.map Prod.fst := by
  rw [h.sends, List.mem_reverse]

theorem getElem?_last {first : List ℕ} {r : ℕ} (h : call.Partway senders (first ++ [r]) past) :
    senders[first.length]? = some r := by
  rw [h.kept, List.append_assoc, List.getElem?_append_right (Nat.le_refl _), Nat.sub_self]
  rfl

/-- **The next send** goes to the last sender of those that are left. -/
theorem send {l : Listeners α} {first : List ℕ} {r : ℕ}
    (h : call.Partway l.senders (first ++ [r]) past) {stage : EventStage}
    (hleft : stage.Left first (r :: past)) :
    ({ call with stage, sends := call.sends ++ [(r, l.isOpen r)] } : EventCall α).Partway
        (l.send call.event first.length).senders first (r :: past) ∧
      l.SentTo call.event (l.send call.event first.length) [r] := by
  have hr : r ∉ past := h.not_mem_past (List.mem_append_right _ (List.mem_singleton_self r))
  have hsplit : l.senders = first ++ r :: past.filter fun r => (r, false) ∉ call.sends := by
    rw [h.kept, List.append_assoc]
    rfl
  obtain ⟨hsenders, hsent⟩ := Listeners.send_spec call.event hsplit
  refine ⟨⟨h.nodup, ?_, hleft, ?_, ?_⟩, hsent⟩
  · rw [h.before, List.append_assoc]
    rfl
  · have hpast : (past.filter fun r' => (r', false) ∉ call.sends ++ [(r, l.isOpen r)]) =
        past.filter fun r' => (r', false) ∉ call.sends := by
      refine List.filter_congr fun r' hr' => ?_
      have hne : r' ≠ r := fun heq => hr (heq ▸ hr')
      simp [hne]
    have hfresh : (r, false) ∉ call.sends := fun hmem =>
      hr (h.mem_past_iff.mpr (List.mem_map_of_mem hmem))
    have hlast : ([r].filter fun r' => (r', false) ∉ call.sends ++ [(r, l.isOpen r)]) =
        [r].filter fun r => l.isOpen r := by
      cases hopen : l.isOpen r with
      | true => simp [hopen, hfresh]
      | false => simp [hopen]
    rw [hsenders, ← hpast, ← hlast, ← List.filter_append]
    rfl
  · rw [List.map_append, h.sends, List.reverse_cons]
    rfl

end EventCall.Partway

/-! ### Runs -/

namespace EventListeners

/-- Where things stand between two steps. -/
structure Delivering (s : EventListeners α) : Prop where
  received : ∀ r, s.listeners.isOpen r = true →
    s.taken r ++ s.listeners.queue r ++ s.onItsWay r = s.fired.drop (s.since r)
  since_le : ∀ r, s.listeners.isOpen r = true → s.since r ≤ s.fired.length
  call : ∀ call, s.lock = some call → ∃ todo past, call.Partway s.listeners.senders todo past

namespace Delivering

variable {s s' : EventListeners α}

theorem new : Delivering (new : EventListeners α) := by
  refine ⟨fun r hr => ?_, fun r hr => ?_, fun call hlock => ?_⟩
  · cases hr
  · cases hr
  · cases hlock

theorem onItsWay_of_unlocked (h : s.lock = none) (r : ℕ) : s.onItsWay r = [] := by
  rw [onItsWay, h]

theorem onItsWay_eq {call : EventCall α} {todo past : List ℕ} (hlock : s.lock = some call)
    (h : call.Partway s.listeners.senders todo past) (r : ℕ) :
    s.onItsWay r = if r ∈ todo then [call.event] else [] := by
  rw [onItsWay, hlock]
  show (if _ then _ else _) = _
  congr 1
  rw [← h.mem_past_iff, h.before, List.mem_append, eq_iff_iff]
  constructor
  · rintro ⟨hr | hr, hpast⟩
    · exact hr
    · exact absurd hr hpast
  · intro hr
    exact ⟨Or.inl hr, h.not_mem_past hr⟩

theorem listen (inv : Delivering s) (hlock : s.lock = none) : Delivering { s with
    listeners := s.listeners.listen
    since := Function.update s.since s.listeners.next s.fired.length
    taken := Function.update s.taken s.listeners.next [] } := by
  refine ⟨fun r hr => ?_, fun r hr => ?_, fun call hcall => ?_⟩
  · rw [onItsWay_of_unlocked (by exact hlock)]
    show Function.update s.taken _ _ r ++ Function.update s.listeners.queue _ _ r ++ [] =
      s.fired.drop (Function.update s.since _ _ r)
    by_cases hnew : r = s.listeners.next
    · subst hnew
      simp
    · have hold := inv.received r (by simpa [Listeners.listen, hnew] using hr)
      rw [onItsWay_of_unlocked hlock] at hold
      simpa [Function.update_of_ne hnew] using hold
  · show Function.update s.since _ _ r ≤ s.fired.length
    by_cases hnew : r = s.listeners.next
    · subst hnew
      simp
    · simpa [Function.update_of_ne hnew] using
        inv.since_le r (by simpa [Listeners.listen, hnew] using hr)
  · cases hlock.symm.trans hcall

theorem event (inv : Delivering s) (hlock : s.lock = none) (event : α) : Delivering { s with
    lock := some
      { event := event
        stage :=
          if 1 < s.listeners.senders.length then .loop (s.listeners.senders.length - 1)
          else .first
        before := s.listeners.senders
        sends := [] }
    fired := s.fired ++ [event] } := by
  refine ⟨fun r hr => ?_, fun r hr => ?_, ?_⟩
  · have hold := inv.received r hr
    rw [onItsWay_of_unlocked hlock, List.append_nil] at hold
    have hway : r ∈ s.listeners.senders ∧ r ∉ ([] : List (ℕ × Bool)).map Prod.fst :=
      ⟨s.listeners.heard r hr, List.not_mem_nil⟩
    show s.taken r ++ s.listeners.queue r ++ (if _ then [event] else []) =
      (s.fired ++ [event]).drop (s.since r)
    rw [if_pos hway, hold, List.drop_append_of_le_length (inv.since_le r hr)]
  · show _ ≤ (s.fired ++ [event]).length
    rw [List.length_append]
    exact Nat.le_add_right_of_le (inv.since_le r hr)
  · intro call hcall
    cases hcall
    refine ⟨s.listeners.senders, [], s.listeners.nodup, (List.append_nil _).symm, ?_, ?_, rfl⟩
    · show EventStage.Left (if _ then _ else _) _ _
      split
      · exact ⟨by omega, by omega⟩
      · by_cases hnil : s.listeners.senders = []
        · exact Or.inr ⟨hnil, rfl⟩
        · have hpos := List.length_pos_iff.mpr hnil
          exact Or.inl (by omega)
    · exact (List.append_nil _).symm

theorem sendTo (inv : Delivering s) {call : EventCall α} {first past : List ℕ} {r : ℕ}
    (hlock : s.lock = some call) (h : call.Partway s.listeners.senders (first ++ [r]) past)
    {stage : EventStage} (hleft : stage.Left first (r :: past)) :
    Delivering (s.sendTo call first.length r stage) := by
  obtain ⟨hnext, hsent⟩ := h.send hleft
  refine ⟨fun r' hr' => ?_, fun r' hr' => ?_, fun call' hcall' => ?_⟩
  · have hopen : s.listeners.isOpen r' = true := by
      rw [← hsent.isOpen]
      exact hr'
    have hold := inv.received r' hopen
    rw [onItsWay_eq hlock h] at hold
    rw [onItsWay_eq (s := s.sendTo call first.length r stage) rfl hnext]
    show s.taken r' ++ (s.listeners.send call.event first.length).queue r' ++
      (if r' ∈ first then [call.event] else []) = s.fired.drop (s.since r')
    rw [hsent.queue, ← hold]
    by_cases heq : r' = r
    · subst heq
      have hfirst : r' ∉ first := h.last_not_mem
      simp [hfirst, hopen]
    · simp [heq]
  · exact inv.since_le r' (by rw [← hsent.isOpen]; exact hr')
  · cases hcall'
    exact ⟨first, r :: past, hnext⟩

theorem recv (inv : Delivering s) {r : ℕ} {event : α} {l : Listeners α}
    (h : s.listeners.recv r = some (event, l)) : Delivering { s with
      listeners := l, taken := Function.update s.taken r (s.taken r ++ [event]) } := by
  obtain ⟨rest, hqueue, rfl⟩ := Listeners.recv_eq_some h
  refine ⟨fun r' hr' => ?_, inv.since_le, inv.call⟩
  have hold := inv.received r' hr'
  show Function.update s.taken _ _ r' ++ Function.update s.listeners.queue _ _ r' ++
    s.onItsWay r' = _
  by_cases heq : r' = r
  · subst heq
    rw [Function.update_self, Function.update_self, ← hold, hqueue,
      ← List.singleton_append (l := rest), List.append_assoc (s.taken r')]
  · rw [Function.update_of_ne heq, Function.update_of_ne heq, hold]

theorem drop (inv : Delivering s) (r : ℕ) :
    Delivering { s with listeners := s.listeners.drop r } := by
  have hopen : ∀ r', (s.listeners.drop r).isOpen r' = true → s.listeners.isOpen r' = true := by
    intro r' hr'
    by_cases heq : r' = r
    · subst heq
      simp [Listeners.drop] at hr'
    · simpa [Listeners.drop, heq] using hr'
  refine ⟨fun r' hr' => inv.received r' (hopen r' hr'),
    fun r' hr' => inv.since_le r' (hopen r' hr'), fun call hcall => ?_⟩
  obtain ⟨todo, past, hcall⟩ := inv.call call hcall
  exact ⟨todo, past, hcall.nodup, hcall.before, hcall.left, hcall.kept, hcall.sends⟩

theorem goOn (inv : Delivering s) {lock : Option (EventCall α)}
    (hway : ∀ r, ({ s with lock } : EventListeners α).onItsWay r = s.onItsWay r)
    (hcall : ∀ call, lock = some call → ∃ todo past,
      call.Partway s.listeners.senders todo past) : Delivering { s with lock } := by
  refine ⟨fun r hr => ?_, inv.since_le, hcall⟩
  rw [hway]
  exact inv.received r hr

theorem sends (inv : Delivering s) (h : s.step .send = some s') : Delivering s' := by
  rw [step] at h
  split at h
  · rename_i call hlock
    obtain ⟨todo, past, hcall⟩ := inv.call call hlock
    have hleft := hcall.left
    split at h
    · -- in the loop there are two senders at least, and the index is that of the last
      rename_i i hstage
      rw [hstage] at hleft
      obtain ⟨hlength, hi⟩ := hleft
      rcases List.eq_nil_or_concat' todo with rfl | ⟨first, r, rfl⟩
      · cases hlength
      rw [List.length_append, List.length_singleton] at hlength
      obtain rfl : first.length = i := by omega
      rw [hcall.getElem?_last] at h
      cases h
      refine inv.sendTo hlock hcall ?_
      split
      · exact Or.inl (by omega)
      · exact ⟨by omega, by omega⟩
    · rename_i hstage
      rw [hstage] at hleft
      rcases hleft with hlength | ⟨rfl, rfl⟩
      · obtain ⟨r, rfl⟩ := List.length_eq_one_iff.mp hlength
        have hcall' : call.Partway s.listeners.senders ([] ++ [r]) past := hcall
        have hget : s.listeners.senders[0]? = some r := hcall'.getElem?_last
        rw [hget] at h
        cases h
        exact inv.sendTo hlock hcall' rfl
      · have hnil : s.listeners.senders = [] := hcall.kept
        rw [hnil] at h
        cases h
        refine inv.goOn (fun r => ?_) fun call' hcall' => ?_
        · rw [onItsWay, onItsWay, hlock]
        · cases hcall'
          exact ⟨[], [], hcall.nodup, hcall.before, rfl, hcall.kept, hcall.sends⟩
    · rename_i hstage
      cases h
      rw [hstage] at hleft
      obtain rfl := hleft
      refine inv.goOn (fun r => ?_) fun call' hcall' => by cases hcall'
      rw [onItsWay_eq hlock hcall, if_neg List.not_mem_nil]
      rfl
    · cases h
  · cases h

theorem step {l : EventLabel α} (inv : Delivering s) (h : s.step l = some s') :
    Delivering s' := by
  cases l with
  | listen =>
    rw [EventListeners.step] at h
    split at h
    · rename_i hlock
      cases h
      exact inv.listen hlock
    · cases h
  | event event =>
    rw [EventListeners.step] at h
    split at h
    · rename_i hlock
      cases h
      exact inv.event hlock event
    · cases h
  | send => exact inv.sends h
  | recv r =>
    rw [EventListeners.step] at h
    split at h
    · obtain ⟨⟨event, l⟩, hrecv, rfl⟩ := Option.map_eq_some_iff.mp h
      exact inv.recv hrecv
    · cases h
  | drop r =>
    rw [EventListeners.step] at h
    split at h
    · cases h
      exact inv.drop r
    · cases h

end Delivering

variable {s : EventListeners α} {call : EventCall α}

theorem step_send_loop {i : ℕ} (hlock : s.lock = some call) (hstage : call.stage = .loop i)
    (hi : i < s.listeners.senders.length) : s.step .send =
      some (s.sendTo call i s.listeners.senders[i] (if i ≤ 1 then .first else .loop (i - 1))) := by
  rw [step, hlock]
  simp only [hstage, List.getElem?_eq_getElem hi]

theorem exec_loop (i : ℕ) (hlock : s.lock = some call) (hstage : call.stage = .loop (i + 1))
    (hlen : i + 1 < s.listeners.senders.length) :
    ∃ call', call'.event = call.event ∧ call'.stage = .first ∧
      exec step s (List.replicate (i + 1) .send) = some
        { s with
          listeners := Listeners.sendDown call.event (i + 2) s.listeners
          lock := some call' } := by
  induction i generalizing s call with
  | zero =>
    refine ⟨_, ?_, ?_, (exec_singleton _ _).trans (step_send_loop hlock hstage hlen)⟩
    · rfl
    · rfl
  | succ i ih =>
    have hstep := step_send_loop hlock hstage hlen
    rw [if_neg (by omega)] at hstep
    have hlen' := Listeners.length_le_send call.event s.listeners (i + 2)
    have hlock' : (s.sendTo call (i + 2) s.listeners.senders[i + 2] (.loop (i + 1))).lock =
        some { call with
          stage := .loop (i + 1)
          sends := call.sends ++ [(_, s.listeners.isOpen s.listeners.senders[i + 2])] } := rfl
    have hlen'' : i + 1 < (s.listeners.send call.event (i + 2)).senders.length := by omega
    obtain ⟨call', hevent, hfirst, hexec⟩ := ih hlock' rfl hlen''
    refine ⟨call', hevent, hfirst, ?_⟩
    rw [List.replicate_succ, exec_cons, hstep]
    exact hexec

theorem exec_first (hlock : s.lock = some call) (hstage : call.stage = .first) :
    exec step s [.send, .send] = some { s with
      listeners := if s.listeners.senders.isEmpty then s.listeners
        else s.listeners.send call.event 0
      lock := none } := by
  rw [exec_cons, step, hlock]
  cases hsenders : s.listeners.senders with
  | nil =>
    simp only [hstage]
    rfl
  | cons r rest =>
    simp only [hstage]
    rfl

/-- **An event that nothing comes between** is the event of the node's listeners. -/
theorem exec_event (hlock : s.lock = none) (event : α) : ∃ n,
    exec step s (.event event :: List.replicate n .send) = some { s with
      listeners := s.listeners.event event, fired := s.fired ++ [event] } := by
  by_cases hlen : 1 < s.listeners.senders.length
  · obtain ⟨i, hi⟩ : ∃ i, s.listeners.senders.length = i + 2 :=
      ⟨s.listeners.senders.length - 2, by omega⟩
    have hstep : s.step (.event event) = some { s with
        lock := some ⟨event, .loop (i + 1), s.listeners.senders, []⟩
        fired := s.fired ++ [event] } := by
      rw [step, hlock]
      simp only [hi]
      rfl
    obtain ⟨call', hevent, hfirst, hexec⟩ := exec_loop (s := { s with
      lock := some ⟨event, .loop (i + 1), s.listeners.senders, []⟩
      fired := s.fired ++ [event] }) i rfl rfl (by rw [hi]; omega)
    refine ⟨i + 1 + 2, ?_⟩
    rw [exec_cons, hstep, Option.bind_some, List.replicate_add, exec_append_of hexec]
    refine (exec_first rfl hfirst).trans ?_
    rw [hevent, Listeners.event, if_pos hlen, hi]
    rw [hlock]
  · have hstep : s.step (.event event) = some { s with
        lock := some ⟨event, .first, s.listeners.senders, []⟩
        fired := s.fired ++ [event] } := by
      rw [step, hlock]
      simp only [if_neg hlen]
    refine ⟨2, ?_⟩
    rw [exec_cons, hstep, Option.bind_some]
    refine (exec_first rfl rfl).trans ?_
    rw [Listeners.event, if_neg hlen, hlock]

end EventListeners

end Tewta
