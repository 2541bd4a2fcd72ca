import Mathlib.Data.List.Induction
import Mathlib.Data.List.Nodup
import Mathlib.Logic.Function.Basic

/-!
# Listeners of an event

A list of senders, one for each receiver that was handed out, in that order.  An
event is sent to all of them, the last first, and a sender whose receiver is gone
is taken out of the list on the way.  Channels are unbounded, so no send waits.

`Listeners` carries what the operations keep: a sender has one place in the list,
and the sender of a receiver that is still there is in it.  The loop over the list
is then forgotten: `queue_event` says that an event reaches exactly the receivers
that are still there.
-/

namespace Broadcast

variable {α : Type*}

/-- The senders, by the numbers of their receivers; what waits at a receiver; and
which receivers are still there. -/
structure Listeners (α : Type*) where
  senders : List ℕ
  queue : ℕ → List α
  isOpen : ℕ → Bool
  next : ℕ
  nodup : senders.Nodup
  numbered : ∀ r ∈ senders, r < next
  heard : ∀ r, isOpen r = true → r ∈ senders

namespace Listeners

/-- Nobody listens. -/
def empty : Listeners α where
  senders := []
  queue _ := []
  isOpen _ := false
  next := 0
  nodup := List.nodup_nil
  numbered _ h := by cases h
  heard _ h := by cases h

/-- A new receiver. -/
def listen (l : Listeners α) : Listeners α where
  senders := l.senders ++ [l.next]
  queue := Function.update l.queue l.next []
  isOpen := Function.update l.isOpen l.next true
  next := l.next + 1
  nodup := by
    refine List.nodup_append'.mpr ⟨l.nodup, List.nodup_singleton _, ?_⟩
    intro r hr hr'
    obtain rfl := List.mem_singleton.mp hr'
    exact absurd (l.numbered _ hr) (Nat.lt_irrefl _)
  numbered r h := by
    rcases List.mem_append.mp h with h | h
    · exact Nat.lt_succ_of_lt (l.numbered r h)
    · obtain rfl := List.mem_singleton.mp h
      exact Nat.lt_succ_self _
  heard r h := by
    by_cases heq : r = l.next
    · subst heq
      exact List.mem_append_right _ (List.mem_singleton_self _)
    · rw [Function.update_of_ne heq] at h
      exact List.mem_append_left _ (l.heard r h)

/-- The `i`-th sender sends an event, and is taken out if its receiver is gone. -/
def send (event : α) (l : Listeners α) (i : ℕ) : Listeners α :=
  match h : l.senders[i]? with
  | none => l
  | some r =>
    if ho : l.isOpen r = true then
      { l with queue := Function.update l.queue r (l.queue r ++ [event]) }
    else
      { l with
        senders := l.senders.eraseIdx i
        nodup := l.nodup.sublist (List.eraseIdx_sublist _ _)
        numbered := fun r' hr' => l.numbered r' ((List.eraseIdx_sublist _ _).subset hr')
        heard := fun r' hr' => by
          obtain ⟨j, hj, hget⟩ := List.mem_iff_getElem.mp (l.heard r' hr')
          refine List.mem_eraseIdx_iff_getElem.mpr ⟨j, hj, fun heq => ho ?_, hget⟩
          subst heq
          rw [List.getElem?_eq_getElem hj, hget] at h
          cases h
          exact hr' }

/-- The senders from the `(n - 1)`-th down to the second. -/
def sendDown (event : α) : ℕ → Listeners α → Listeners α
  | 0, l => l
  | 1, l => l
  | n + 2, l => sendDown event (n + 1) (l.send event (n + 1))

/-- An event, to all senders. -/
def event (l : Listeners α) (event : α) : Listeners α :=
  let l' := if 1 < l.senders.length then sendDown event l.senders.length l else l
  if l'.senders.isEmpty then l' else l'.send event 0

/-- What waits first is received. -/
def recv (l : Listeners α) (r : ℕ) : Option (α × Listeners α) :=
  match l.queue r with
  | [] => none
  | event :: rest => some (event, { l with queue := Function.update l.queue r rest })

/-- A receiver is dropped. -/
def drop (l : Listeners α) (r : ℕ) : Listeners α :=
  { l with
    isOpen := Function.update l.isOpen r false
    heard := fun r' h => by
      by_cases heq : r' = r
      · subst heq
        rw [Function.update_self] at h
        cases h
      · rw [Function.update_of_ne heq] at h
        exact l.heard r' h }

/-! ### The loop over the senders -/

/-- An event has been sent to some of the receivers. -/
structure SentTo (event : α) (l l' : Listeners α) (receivers : List ℕ) : Prop where
  isOpen : l'.isOpen = l.isOpen
  next : l'.next = l.next
  queue : ∀ r, l'.queue r =
    if r ∈ receivers ∧ l.isOpen r = true then l.queue r ++ [event] else l.queue r

theorem SentTo.refl (event : α) (l : Listeners α) : SentTo event l l [] := by
  refine ⟨rfl, rfl, fun r => ?_⟩
  rw [if_neg]
  simp

theorem SentTo.trans {event : α} {l l' l'' : Listeners α} {rs rs' : List ℕ}
    (h : SentTo event l l' rs) (h' : SentTo event l' l'' rs') (hdisj : rs.Disjoint rs') :
    SentTo event l l'' (rs ++ rs') := by
  refine ⟨h'.isOpen.trans h.isOpen, h'.next.trans h.next, fun r => ?_⟩
  rw [h'.queue, h.queue, h.isOpen]
  by_cases hr : r ∈ rs
  · have hr' : r ∉ rs' := fun hmem => hdisj hr hmem
    simp [hr, hr']
  · simp [hr]

theorem send_spec (event : α) {l : Listeners α} {first rest : List ℕ} {r : ℕ}
    (h : l.senders = first ++ r :: rest) :
    (l.send event first.length).senders =
        first ++ ([r].filter (fun r => l.isOpen r) ++ rest) ∧
      SentTo event l (l.send event first.length) [r] := by
  have hget : l.senders[first.length]? = some r := by
    rw [h, List.getElem?_append_right (Nat.le_refl _), Nat.sub_self]
    rfl
  rw [send]
  split
  · rename_i hnone
    rw [hget] at hnone
    cases hnone
  · rename_i r' hsome
    obtain rfl : r = r' := Option.some.inj (hget.symm.trans hsome)
    split
    · rename_i ho
      refine ⟨?_, rfl, rfl, fun r' => ?_⟩
      · rw [List.filter_singleton, ho]
        exact h
      · by_cases heq : r' = r
        · subst heq
          rw [if_pos ⟨List.mem_singleton_self _, ho⟩]
          exact Function.update_self _ _ _
        · rw [if_neg fun hr => heq (List.mem_singleton.mp hr.1)]
          exact Function.update_of_ne heq _ _
    · rename_i ho
      refine ⟨?_, rfl, rfl, fun r' => ?_⟩
      · have herase : l.senders.eraseIdx first.length = first ++ rest := by
          rw [h, List.eraseIdx_append_of_length_le (Nat.le_refl _), Nat.sub_self]
          rfl
        rw [Bool.not_eq_true] at ho
        rw [List.filter_singleton, ho]
        exact herase
      · rw [if_neg]
        rintro ⟨hr, ho'⟩
        obtain rfl := List.mem_singleton.mp hr
        exact ho ho'

theorem length_le_send (event : α) (l : Listeners α) (i : ℕ) :
    l.senders.length ≤ (l.send event i).senders.length + 1 := by
  rw [send]
  split
  · exact Nat.le_succ _
  · split
    · exact Nat.le_succ _
    · show _ ≤ (l.senders.eraseIdx i).length + 1
      rw [List.length_eraseIdx]
      split <;> omega

theorem sendDown_spec (event : α) (first : ℕ) : ∀ (middle rest : List ℕ) (l : Listeners α),
    l.senders = first :: (middle ++ rest) →
      (sendDown event (middle.length + 1) l).senders =
          first :: (middle.filter (fun r => l.isOpen r) ++ rest) ∧
        SentTo event l (sendDown event (middle.length + 1) l) middle := by
  intro middle
  induction middle using List.reverseRecOn with
  | nil =>
    intro rest l h
    exact ⟨h, .refl event l⟩
  | append_singleton middle r ih =>
    intro rest l h
    have hsplit : l.senders = (first :: middle) ++ r :: rest := by
      rw [h, List.append_assoc]
      rfl
    obtain ⟨hsenders, hsent⟩ := send_spec event hsplit
    rw [List.length_append, List.length_singleton]
    obtain ⟨hsenders', hsent'⟩ := ih ([r].filter (fun r => l.isOpen r) ++ rest)
      (l.send event (middle.length + 1)) hsenders
    have hnodup := l.nodup
    rw [hsplit, List.nodup_append'] at hnodup
    have hdisj : [r].Disjoint middle := by
      intro x hx hx'
      obtain rfl := List.mem_singleton.mp hx
      exact hnodup.2.2 (List.mem_cons_of_mem _ hx') List.mem_cons_self
    refine ⟨?_, ?_⟩
    · have hopen : (l.send event (middle.length + 1)).isOpen = l.isOpen := hsent.isOpen
      refine hsenders'.trans ?_
      rw [hopen, List.filter_append, List.append_assoc]
    · have hboth := hsent.trans hsent' hdisj
      refine ⟨hboth.isOpen, hboth.next, fun x => ?_⟩
      refine (hboth.queue x).trans ?_
      simp only [List.mem_append, List.mem_singleton]
      congr 1
      exact propext (and_congr_left fun _ => or_comm)

/-- **An event reaches exactly the receivers that are still there**, and the senders of
the others are taken out. -/
theorem event_spec (l : Listeners α) (event : α) :
    (l.event event).senders = l.senders.filter (fun r => l.isOpen r) ∧
      SentTo event l (l.event event) l.senders := by
  rw [Listeners.event]
  cases hl : l.senders with
  | nil =>
    rw [List.length_nil, if_neg (Nat.not_lt_zero 1)]
    simp only [hl, List.isEmpty_nil, if_true]
    exact ⟨rfl, .refl event l⟩
  | cons first middle =>
    have hcons : l.senders = first :: (middle ++ []) := by rw [hl, List.append_nil]
    obtain ⟨hsenders, hsent⟩ := sendDown_spec event first middle [] l hcons
    have hdown : (if 1 < (first :: middle).length then
        sendDown event (first :: middle).length l else l) =
          sendDown event (middle.length + 1) l := by
      split
      · rfl
      · rename_i hlen
        have hnil : middle.length = 0 := by
          rw [List.length_cons] at hlen
          omega
        rw [hnil]
        rfl
    simp only [hdown]
    rw [List.append_nil] at hsenders
    rw [if_neg (by rw [hsenders]; simp)]
    obtain ⟨hsenders', hsent'⟩ := send_spec event (hsenders.trans (List.nil_append _).symm)
    have hnodup := l.nodup
    rw [hl, List.nodup_cons] at hnodup
    refine ⟨?_, ?_⟩
    · refine hsenders'.trans ?_
      rw [hsent.isOpen, List.nil_append, ← List.filter_append]
      rfl
    · have hboth := hsent.trans hsent' fun x hx hx' => by
        obtain rfl := List.mem_singleton.mp hx'
        exact hnodup.1 hx
      refine ⟨hboth.isOpen, hboth.next, fun x => ?_⟩
      refine (hboth.queue x).trans ?_
      simp only [List.mem_append, List.mem_cons, List.not_mem_nil, or_false]
      congr 1
      exact propext (and_congr_left fun _ => or_comm)

/-! ### What the operations do -/

theorem queue_event (l : Listeners α) (event : α) (r : ℕ) :
    (l.event event).queue r = if l.isOpen r = true then l.queue r ++ [event] else l.queue r := by
  rw [(event_spec l event).2.queue]
  congr 1
  exact propext (and_iff_right_of_imp (l.heard r))

@[simp] theorem isOpen_event (l : Listeners α) (event : α) :
    (l.event event).isOpen = l.isOpen := (event_spec l event).2.isOpen

@[simp] theorem next_event (l : Listeners α) (event : α) :
    (l.event event).next = l.next := (event_spec l event).2.next

theorem recv_eq_some {l l' : Listeners α} {r : ℕ} {event : α}
    (h : l.recv r = some (event, l')) :
    ∃ rest, l.queue r = event :: rest ∧
      l' = { l with queue := Function.update l.queue r rest } := by
  rw [recv] at h
  split at h
  · cases h
  · rename_i rest hq
    cases h
    exact ⟨rest, hq, rfl⟩

end Listeners

end Broadcast
