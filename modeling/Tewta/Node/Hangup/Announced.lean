import Tewta.Node.Hangup

/-!
# Every removal is announced

A call of `disconnect` announces the connection that it has removed, unless it is lost in
between.  It can be lost there only while it waits for the lock of the listeners: its future is
dropped, or it runs in the read task that it has itself aborted.  The removals are counted
here against the events and what was lost.
-/

namespace Tewta

open Transition HangupState

/-- A call that goes on. -/
def HangupStage.isRunning : HangupStage → Bool
  | .returned => false
  | .panicked => false
  | .dropped => false
  | _ => true

theorem HangupStage.isRunning_of_isPending {stage : HangupStage}
    (h : stage.isPending = true) : stage.isRunning = true := by
  revert h
  cases stage <;> decide

namespace HangupState

/-- No call of `disconnect` is in progress. -/
def Quiet (s : HangupState) : Prop :=
  ∀ c call, s.calls c = some call → call.stage.isRunning = false

/-- How often a peer was removed, and how often that was announced. -/
def removals (s : HangupState) (n : PeerID) : ℕ := s.removed.countP fun e => e.1 = n

def announcements (s : HangupState) (n : PeerID) : ℕ := s.fired.countP fun e => e.1 = n

/-- The steps in which no call is lost between the removal and the event. -/
def Unhurried (s : HangupState) : HangupLabel → Prop
  | .drop c => ∀ call, s.calls c = some call → call.stage ≠ .waiting
  | _ => True

end HangupState

/-- Where every removed connection is: announced, lost, or with the one call that has
removed it and is to announce it. -/
structure Ledger (s : HangupState) : Prop extends HangupInv s where
  removed_nodup : s.removed.Nodup
  fired_nodup : s.fired.Nodup
  lost : ∀ e ∈ s.lost, e ∈ s.removed ∧ e ∉ s.fired
  pending : ∀ c call, s.calls c = some call → call.stage.isPending = true →
    call.took ≠ none ∧ ∀ e ∈ taken call, e ∉ s.fired ∧ e ∉ s.lost
  apart : ∀ c c' call call' e, s.calls c = some call → s.calls c' = some call' →
    e ∈ taken call → e ∈ taken call' → c = c'
  accounted : ∀ e ∈ s.removed, e ∈ s.fired ∨ e ∈ s.lost ∨
    ∃ c call, s.calls c = some call ∧ call.stage.isPending = true ∧ e ∈ taken call

namespace Ledger

variable {codec : Codec Bytes} {s s' : HangupState}

theorem init (ourPeerId : PeerID) : Ledger (HangupState.init ourPeerId) where
  toHangupInv := .init ourPeerId
  removed_nodup := List.nodup_nil
  fired_nodup := List.nodup_nil
  lost e he := by cases he
  pending c call hcall := by cases hcall
  apart c c' call call' e hcall := by cases hcall
  accounted e he := by cases he

theorem mem_removed (inv : Ledger s) {c : ℕ} {call : HangupCall} {e : PeerID × PeerInfo}
    (hcall : s.calls c = some call) (he : e ∈ taken call) : e ∈ s.removed := by
  obtain ⟨hn, htook⟩ := HangupInv.mem_taken.mp he
  have hmem := inv.took c call e.2 hcall htook
  rw [← hn] at hmem
  exact hmem

theorem apart_setCall (inv : Ledger s) {c : ℕ} {call : HangupCall} (call' : HangupCall)
    (hcall : s.calls c = some call) (htaken : taken call' = taken call) {c₁ c₂ : ℕ}
    {call₁ call₂ : HangupCall} {e : PeerID × PeerInfo}
    (h₁ : (s.setCall c call').calls c₁ = some call₁)
    (h₂ : (s.setCall c call').calls c₂ = some call₂) (he₁ : e ∈ taken call₁)
    (he₂ : e ∈ taken call₂) : c₁ = c₂ := by
  have hold : ∀ c' call'', (s.setCall c call').calls c' = some call'' → e ∈ taken call'' →
      ∃ old, s.calls c' = some old ∧ e ∈ taken old := by
    intro c' call'' h he
    rcases update_eq_cases h with ⟨rfl, heq⟩ | ⟨-, h⟩
    · cases heq
      exact ⟨call, hcall, htaken ▸ he⟩
    · exact ⟨call'', h, he⟩
  obtain ⟨old₁, hold₁, hmem₁⟩ := hold c₁ call₁ h₁ he₁
  obtain ⟨old₂, hold₂, hmem₂⟩ := hold c₂ call₂ h₂ he₂
  exact inv.apart c₁ c₂ old₁ old₂ e hold₁ hold₂ hmem₁ hmem₂

theorem setCall (inv : Ledger s) {c : ℕ} {call call' : HangupCall} (hcall : s.calls c = some call)
    (hinv : HangupInv (s.setCall c call')) (htaken : taken call' = taken call)
    (htook : call'.took = call.took) (hpending : call'.stage.isPending = call.stage.isPending) :
    Ledger (s.setCall c call') where
  toHangupInv := hinv
  removed_nodup := inv.removed_nodup
  fired_nodup := inv.fired_nodup
  lost := inv.lost
  pending c' call'' hcall'' hstage := by
    rcases update_eq_cases hcall'' with ⟨-, heq⟩ | ⟨-, hcall''⟩
    · cases heq
      rw [htaken, htook]
      exact inv.pending c call hcall (hpending ▸ hstage)
    · exact inv.pending c' call'' hcall'' hstage
  apart _ _ _ _ _ := inv.apart_setCall _ hcall htaken
  accounted e he := by
    rcases inv.accounted e he with hfired | hlost | ⟨c', call'', hcall'', hstage, hmem⟩
    · exact Or.inl hfired
    · exact Or.inr (Or.inl hlost)
    · refine Or.inr (Or.inr ?_)
      by_cases hc : c' = c
      · subst hc
        cases hcall.symm.trans hcall''
        exact ⟨c', call', calls_setCall_self _ _ _, hpending ▸ hstage, htaken ▸ hmem⟩
      · exact ⟨c', call'', (Function.update_of_ne hc _ _).trans hcall'', hstage, hmem⟩

theorem call (inv : Ledger s) {c : ℕ} {call : HangupCall} (hnone : s.calls c = none)
    (hinv : HangupInv (s.setCall c call)) (htook : call.took = none)
    (hstage : call.stage.isPending = false) : Ledger (s.setCall c call) where
  toHangupInv := hinv
  removed_nodup := inv.removed_nodup
  fired_nodup := inv.fired_nodup
  lost := inv.lost
  pending c' call' hcall' hpending := by
    rcases update_eq_cases hcall' with ⟨-, heq⟩ | ⟨-, hcall'⟩
    · cases heq
      cases hstage.symm.trans hpending
    · exact inv.pending c' call' hcall' hpending
  apart c₁ c₂ call₁ call₂ e h₁ h₂ he₁ he₂ := by
    have hold : ∀ c' call', (s.setCall c call).calls c' = some call' → e ∈ taken call' →
        s.calls c' = some call' := by
      intro c' call' h he
      rcases update_eq_cases h with ⟨-, heq⟩ | ⟨-, h⟩
      · cases heq
        cases htook.symm.trans (HangupInv.mem_taken.mp he).2
      · exact h
    exact inv.apart c₁ c₂ call₁ call₂ e (hold _ _ h₁ he₁) (hold _ _ h₂ he₂) he₁ he₂
  accounted e he := by
    rcases inv.accounted e he with hfired | hlost | ⟨c', call', hcall', hpending, hmem⟩
    · exact Or.inl hfired
    · exact Or.inr (Or.inl hlost)
    · refine Or.inr (Or.inr ⟨c', call', ?_, hpending, hmem⟩)
      rw [← hcall']
      apply Function.update_of_ne
      rintro rfl
      cases hnone.symm.trans hcall'

theorem removes (inv : Ledger s) {c : ℕ} {call : HangupCall} {peer : PeerInfo}
    (hcall : s.calls c = some call) (hstage : call.stage = .removing)
    (hpeer : s.pool.connections[call.peerId]? = some peer) :
    Ledger { s.setCall c { call with stage := .announcing, took := some peer } with
      pool := s.pool.remove call.peerId
      aborted := Function.update s.aborted peer.readStreamTask true
      removed := s.removed ++ [(call.peerId, peer)] } := by
  have hnew : (call.peerId, peer) ∉ s.removed := fun h => (inv.removed _ h).2.2 _ peer hpeer rfl
  have hcases : ∀ c' call', (s.setCall c
      { call with stage := .announcing, took := some peer }).calls c' = some call' →
      (c' = c ∧ call'.took = some peer ∧ taken call' = [(call.peerId, peer)]) ∨
        (c' ≠ c ∧ s.calls c' = some call') := by
    intro c' call' h
    rcases update_eq_cases h with ⟨hc, heq⟩ | ⟨hc, h⟩
    · cases heq
      exact Or.inl ⟨hc, rfl, rfl⟩
    · exact Or.inr ⟨hc, h⟩
  refine ⟨inv.toHangupInv.removes hcall hpeer, ?_, inv.fired_nodup, fun e he => ?_,
    fun c' call' hcall' hpending => ?_, fun c₁ c₂ call₁ call₂ e h₁ h₂ he₁ he₂ => ?_,
    fun e he => ?_⟩
  · refine List.nodup_append.mpr ⟨inv.removed_nodup, List.nodup_singleton _, ?_⟩
    intro e he e' he' heq
    rw [List.mem_singleton.mp he'] at heq
    exact hnew (heq ▸ he)
  · exact ⟨List.mem_append_left _ (inv.lost e he).1, (inv.lost e he).2⟩
  · rcases hcases c' call' hcall' with ⟨-, htook, htaken⟩ | ⟨-, hcall'⟩
    · refine ⟨by rw [htook]; exact Option.some_ne_none _, fun e he => ?_⟩
      rw [htaken, List.mem_singleton] at he
      subst he
      exact ⟨fun h => hnew (inv.fired _ h), fun h => hnew (inv.lost _ h).1⟩
    · exact inv.pending c' call' hcall' hpending
  · rcases hcases c₁ call₁ h₁ with ⟨hc₁, -, htaken₁⟩ | ⟨-, hold₁⟩
    · rcases hcases c₂ call₂ h₂ with ⟨hc₂, -, -⟩ | ⟨-, hold₂⟩
      · rw [hc₁, hc₂]
      · rw [htaken₁, List.mem_singleton] at he₁
        exact absurd (he₁ ▸ inv.mem_removed hold₂ he₂) hnew
    · rcases hcases c₂ call₂ h₂ with ⟨-, -, htaken₂⟩ | ⟨-, hold₂⟩
      · rw [htaken₂, List.mem_singleton] at he₂
        exact absurd (he₂ ▸ inv.mem_removed hold₁ he₁) hnew
      · exact inv.apart c₁ c₂ call₁ call₂ e hold₁ hold₂ he₁ he₂
  · rcases List.mem_append.mp he with he | he
    · rcases inv.accounted e he with hfired | hlost | ⟨c', call', hcall', hpending, hmem⟩
      · exact Or.inl hfired
      · exact Or.inr (Or.inl hlost)
      · refine Or.inr (Or.inr ⟨c', call', ?_, hpending, hmem⟩)
        rw [← hcall']
        apply Function.update_of_ne
        rintro rfl
        cases hcall.symm.trans hcall'
        rw [hstage] at hpending
        cases hpending
    · exact Or.inr (Or.inr ⟨c, _, calls_setCall_self _ _ _, rfl, he⟩)

/-- What a call that ends was to announce is settled: it was put with `fired` or with `lost`. -/
theorem accounted_setCall (inv : Ledger s) {c : ℕ} {call call' : HangupCall}
    (hcall : s.calls c = some call) {e : PeerID × PeerInfo} (he : e ∈ s.removed) :
    e ∈ s.fired ∨ e ∈ s.lost ∨ (call.stage.isPending = true ∧ e ∈ taken call) ∨
      ∃ c' call'', (s.setCall c call').calls c' = some call'' ∧
        call''.stage.isPending = true ∧ e ∈ taken call'' := by
  rcases inv.accounted e he with hfired | hlost | ⟨c', call'', hcall'', hpending, hmem⟩
  · exact Or.inl hfired
  · exact Or.inr (Or.inl hlost)
  · refine Or.inr (Or.inr ?_)
    by_cases hc : c' = c
    · subst hc
      cases hcall.symm.trans hcall''
      exact Or.inl ⟨hpending, hmem⟩
    · exact Or.inr ⟨c', call'', (Function.update_of_ne hc _ _).trans hcall'', hpending, hmem⟩

theorem fires (inv : Ledger s) {c : ℕ} {call : HangupCall} (hcall : s.calls c = some call)
    (hstage : call.stage = .firing)
    (hinv : HangupInv { s.setCall c { call with stage := .returned } with
      lock := .free, fired := s.fired ++ taken call }) :
    Ledger { s.setCall c { call with stage := .returned } with
      lock := .free, fired := s.fired ++ taken call } := by
  have hpending : call.stage.isPending = true := by rw [hstage]; rfl
  obtain ⟨-, hfresh⟩ := inv.pending c call hcall hpending
  have htaken : (taken call).Nodup := by
    rw [taken]
    split
    · exact List.nodup_singleton _
    · exact List.nodup_nil
  have hother : ∀ c' call', c' ≠ c → s.calls c' = some call' → ∀ e ∈ taken call',
      e ∉ taken call :=
    fun c' call' hc hcall' e he he' => hc (inv.apart c' c call' call e hcall' hcall he he')
  refine ⟨hinv, inv.removed_nodup, ?_, fun e he => ?_, fun c' call' hcall' hp => ?_,
    fun c₁ c₂ call₁ call₂ e => inv.apart_setCall { call with stage := .returned } hcall rfl,
    fun e he => ?_⟩
  · refine List.nodup_append.mpr ⟨inv.fired_nodup, htaken, ?_⟩
    rintro e he e' he' rfl
    exact (hfresh e he').1 he
  · refine ⟨(inv.lost e he).1, fun hfired => ?_⟩
    rcases List.mem_append.mp hfired with hfired | hfired
    · exact (inv.lost e he).2 hfired
    · exact (hfresh e hfired).2 he
  · rcases update_eq_cases hcall' with ⟨-, heq⟩ | ⟨hc, hcall'⟩
    · cases heq
      cases hp
    · obtain ⟨htook, hfresh'⟩ := inv.pending c' call' hcall' hp
      refine ⟨htook, fun e he => ⟨fun hfired => ?_, (hfresh' e he).2⟩⟩
      rcases List.mem_append.mp hfired with hfired | hfired
      · exact (hfresh' e he).1 hfired
      · exact hother c' call' hc hcall' e he hfired
  · rcases inv.accounted_setCall hcall he with hfired | hlost | ⟨-, hmem⟩ | hcalls
    · exact Or.inl (List.mem_append_left _ hfired)
    · exact Or.inr (Or.inl hlost)
    · exact Or.inl (List.mem_append_right _ hmem)
    · exact Or.inr (Or.inr hcalls)

theorem drops (inv : Ledger s) {c : ℕ} {call : HangupCall} (hcall : s.calls c = some call)
    (hstage : call.stage.isSuspended = true)
    (hinv : HangupInv { s.setCall c { call with stage := .dropped } with
      lost := if call.stage = .waiting then s.lost ++ taken call else s.lost }) :
    Ledger { s.setCall c { call with stage := .dropped } with
      lost := if call.stage = .waiting then s.lost ++ taken call else s.lost } := by
  -- a call that is suspended elsewhere has removed nothing
  have hlost : ∀ e, e ∈ (if call.stage = .waiting then s.lost ++ taken call else s.lost) ↔
      e ∈ s.lost ∨ (call.stage.isPending = true ∧ e ∈ taken call) := by
    intro e
    split
    · rename_i hwaiting
      rw [List.mem_append, hwaiting]
      exact or_congr_right (and_iff_right rfl).symm
    · rename_i hwaiting
      refine (or_iff_left ?_).symm
      rintro ⟨hpending, -⟩
      revert hstage hwaiting hpending
      cases call.stage <;> decide
  have hother : ∀ c' call', c' ≠ c → s.calls c' = some call' → ∀ e ∈ taken call',
      e ∉ taken call :=
    fun c' call' hc hcall' e he he' => hc (inv.apart c' c call' call e hcall' hcall he he')
  refine ⟨hinv, inv.removed_nodup, inv.fired_nodup, fun e he => ?_, fun c' call' hcall' hp => ?_,
    fun c₁ c₂ call₁ call₂ e => inv.apart_setCall { call with stage := .dropped } hcall rfl,
    fun e he => ?_⟩
  · rcases (hlost e).mp he with he | ⟨hpending, he⟩
    · exact inv.lost e he
    · exact ⟨inv.mem_removed hcall he, ((inv.pending c call hcall hpending).2 e he).1⟩
  · rcases update_eq_cases hcall' with ⟨-, heq⟩ | ⟨hc, hcall'⟩
    · cases heq
      cases hp
    · obtain ⟨htook, hfresh'⟩ := inv.pending c' call' hcall' hp
      refine ⟨htook, fun e he => ⟨(hfresh' e he).1, fun hmem => ?_⟩⟩
      rcases (hlost e).mp hmem with hmem | ⟨-, hmem⟩
      · exact (hfresh' e he).2 hmem
      · exact hother c' call' hc hcall' e he hmem
  · rcases inv.accounted_setCall hcall he with hfired | hold | hmem | hcalls
    · exact Or.inl hfired
    · exact Or.inr (Or.inl ((hlost e).mpr (Or.inl hold)))
    · exact Or.inr (Or.inl ((hlost e).mpr (Or.inr hmem)))
    · exact Or.inr (Or.inr hcalls)

theorem of_eq (inv : Ledger s) (hinv : HangupInv s') (hcalls : s'.calls = s.calls)
    (hremoved : s'.removed = s.removed) (hfired : s'.fired = s.fired)
    (hlost : s'.lost = s.lost) : Ledger s' := by
  refine ⟨hinv, ?_, ?_, ?_, ?_, ?_, ?_⟩ <;> simp only [hcalls, hremoved, hfired, hlost]
  · exact inv.removed_nodup
  · exact inv.fired_nodup
  · exact inv.lost
  · exact inv.pending
  · exact inv.apart
  · exact inv.accounted

theorem step (inv : Ledger s) {l : HangupLabel} (h : s.step codec l = some s') : Ledger s' := by
  have hinv := inv.toHangupInv.step h
  cases step_cases h with
  | insert _ => exact inv.of_eq hinv rfl rfl rfl rfl
  | call hnone => exact inv.call hnone hinv rfl rfl
  | noQuit hcall hstage _ => exact inv.setCall hcall hinv rfl rfl (by rw [hstage]; rfl)
  | quits hcall hstage _ => exact inv.setCall hcall hinv rfl rfl (by rw [hstage]; rfl)
  | panics hcall hstage _ _ _ => exact inv.setCall hcall hinv rfl rfl (by rw [hstage]; rfl)
  | removes hcall hstage hpeer => exact inv.removes hcall hstage hpeer
  | absent hcall hstage _ => exact inv.setCall hcall hinv rfl rfl (by rw [hstage]; rfl)
  | @locks c call hcall hpending =>
    have hset : HangupInv (s.setCall c { call with stage := .firing }) :=
      inv.toHangupInv.setStage hcall .firing (by rintro (h | h) <;> cases h)
    exact (inv.setCall hcall hset rfl rfl hpending.symm).of_eq hinv rfl rfl rfl rfl
  | waits hcall hstage => exact inv.setCall hcall hinv rfl rfl (by rw [hstage]; rfl)
  | fires hcall hstage => exact inv.fires hcall hstage hinv
  | drops hcall hstage => exact inv.drops hcall hstage hinv
  | listen => exact inv.of_eq hinv rfl rfl rfl rfl
  | listened => exact inv.of_eq hinv rfl rfl rfl rfl

end Ledger

/-! ### What was lost is what is missing -/

namespace HangupState

variable {codec : Codec Bytes} {s s' : HangupState}

/-- A step loses something exactly when it drops a call that waits for the listeners. -/
theorem lost_step (inv : Ledger s) {l : HangupLabel} (h : s.step codec l = some s') :
    s'.lost = [] ↔ s.lost = [] ∧ s.Unhurried l := by
  have hsame : ∀ {lost : List (PeerID × PeerInfo)}, lost = s.lost →
      (lost = [] ↔ s.lost = [] ∧ True) := fun heq => by rw [heq, and_true]
  cases step_cases h with
  | @drops c call hcall _ =>
    have hunhurried : s.Unhurried (.drop c) ↔ call.stage ≠ .waiting :=
      ⟨fun hok => hok call hcall, fun hne call' hcall' => by
        cases hcall.symm.trans hcall'
        exact hne⟩
    rw [hunhurried]
    show (if call.stage = .waiting then s.lost ++ taken call else s.lost) = [] ↔ _
    by_cases hwaiting : call.stage = .waiting
    · -- the call has removed a connection
      obtain ⟨htook, -⟩ := inv.pending c call hcall (by rw [hwaiting]; rfl)
      have htaken : taken call ≠ [] := by
        obtain ⟨peer, hpeer⟩ := Option.ne_none_iff_exists'.mp htook
        rw [taken, hpeer]
        exact List.cons_ne_nil _ _
      rw [if_pos hwaiting, List.append_eq_nil_iff]
      exact ⟨fun hnil => absurd hnil.2 htaken, fun hok => absurd hwaiting hok.2⟩
    · rw [if_neg hwaiting, and_iff_left hwaiting]
  | insert _ => exact hsame rfl
  | call _ => exact hsame rfl
  | noQuit _ _ _ => exact hsame rfl
  | quits _ _ _ => exact hsame rfl
  | panics _ _ _ _ _ => exact hsame rfl
  | removes _ _ _ => exact hsame rfl
  | absent _ _ _ => exact hsame rfl
  | locks _ _ => exact hsame rfl
  | waits _ _ => exact hsame rfl
  | fires _ _ => exact hsame rfl
  | listen => exact hsame rfl
  | listened => exact hsame rfl

theorem lost_exec (inv : Ledger s) {labels : List HangupLabel}
    (h : exec (step codec) s labels = some s') :
    s'.lost = [] ↔ s.lost = [] ∧ Meets (step codec) Unhurried s labels := by
  induction labels generalizing s with
  | nil =>
    cases h
    exact (and_iff_left trivial).symm
  | cons l labels ih =>
    obtain ⟨t, hstep, hrest⟩ := exec_cons_eq_some.mp h
    rw [ih (inv.step hstep) hrest, lost_step inv hstep, and_assoc]
    refine and_congr_right fun _ => and_congr_right fun _ =>
      ⟨fun hmeets t' ht' => ?_, fun hmeets => hmeets t hstep⟩
    cases hstep.symm.trans ht'
    exact hmeets

/-- When all calls are over, every removal was announced if and only if none was lost. -/
theorem announced_iff (inv : Ledger s) (hquiet : s.Quiet) :
    (∀ n, s.announcements n = s.removals n) ↔ s.lost = [] := by
  constructor
  · intro hequal
    refine List.eq_nil_iff_forall_not_mem.mpr fun e he => ?_
    obtain ⟨hremoved, hfired⟩ := inv.lost e he
    have hsub : (e :: s.fired).Subperm s.removed :=
      List.subperm_of_subset (List.nodup_cons.mpr ⟨hfired, inv.fired_nodup⟩)
        (List.cons_subset.mpr ⟨hremoved, inv.fired⟩)
    have hle := hsub.countP_le fun e' => decide (e'.1 = e.1)
    rw [List.countP_cons_of_pos (by simp)] at hle
    exact absurd (hequal e.1) (Nat.ne_of_lt hle)
  · intro hlost n
    refine List.Perm.countP_eq _ ?_
    refine (List.perm_ext_iff_of_nodup inv.fired_nodup inv.removed_nodup).mpr fun e => ?_
    refine ⟨inv.fired e, fun he => ?_⟩
    rcases inv.accounted e he with hfired | hmem | ⟨c, call, hcall, hpending, -⟩
    · exact hfired
    · rw [hlost] at hmem
      cases hmem
    · have hrunning := HangupStage.isRunning_of_isPending hpending
      cases hrunning.symm.trans (hquiet c call hcall)

/-- **Every removal is announced once, exactly in the runs that lose no call between the
removal and the event.** -/
theorem removals_announced_iff (codec : Codec Bytes) {ourPeerId : PeerID}
    {labels : List HangupLabel} (h : exec (step codec) (init ourPeerId) labels = some s)
    (hquiet : s.Quiet) : (∀ n, s.announcements n = s.removals n) ↔
      Meets (step codec) Unhurried (init ourPeerId) labels := by
  have inv : Ledger s :=
    invariant_of_exec (fun _ _ _ inv hstep => Ledger.step inv hstep) h (Ledger.init ourPeerId)
  rw [announced_iff inv hquiet, lost_exec (Ledger.init ourPeerId) h]
  exact and_iff_right rfl

/-! ### A call that cancels itself -/

/-- Two peers quit at once.  The read task of `n` finds the lock of the listeners taken for the
event of `m`, and has aborted itself. -/
def twoQuits (n m : PeerID) (quit : QuitPacket) : List HangupLabel :=
  [.insert n "local-1", .insert m "local-2", .call 0 n quit (some 0), .call 1 m quit (some 1),
    .quit 0 .written, .quit 1 .written, .remove 0, .remove 1, .lock 1, .lock 0, .drop 0, .fire 1]

theorem step_insert_of {n : PeerID} {addr : String} (hnone : s.pool.connections[n]? = none) :
    s.step codec (.insert n addr) = some { s with
      pool := s.pool.insert n
        { addr, writeStream := s.next, pingNanos := none, readStreamTask := s.next }
      next := s.next + 1 } := by
  simp only [step, hnone]

theorem step_written_of {c : ℕ} {call : HangupCall} {peer : PeerInfo} {body : Bytes}
    (hcall : s.calls c = some call) (hstage : call.stage = .quitting)
    (hbody : codec.rawBytes (.quit call.quit) = .ok body)
    (hpeer : s.pool.connections[call.peerId]? = some peer) :
    s.step codec (.quit c .written) =
      some (s.setCall c { call with stage := .removing, quitOn := some peer }) := by
  simp only [step, hcall, hstage, if_true, sendQuit, hbody, hpeer]

theorem step_remove_of {c : ℕ} {call : HangupCall} {peer : PeerInfo}
    (hcall : s.calls c = some call) (hstage : call.stage = .removing)
    (hpeer : s.pool.connections[call.peerId]? = some peer) :
    s.step codec (.remove c) =
      some { s.setCall c { call with stage := .announcing, took := some peer } with
        pool := s.pool.remove call.peerId
        aborted := Function.update s.aborted peer.readStreamTask true
        removed := s.removed ++ [(call.peerId, peer)] } := by
  simp only [step, hcall, hstage, if_true, removeEntry, hpeer]

theorem exec_twoQuits {n m : PeerID} (hne : n ≠ m) (ourPeerId : PeerID) {quit : QuitPacket}
    {body : Bytes} (hbody : codec.rawBytes (.quit quit) = .ok body) : ∃ s,
      exec (step codec) (init ourPeerId) (twoQuits n m quit) = some s ∧ s.Quiet ∧
        s.removed = [(n, ⟨"local-1", 0, none, 0⟩), (m, ⟨"local-2", 1, none, 1⟩)] ∧
        s.fired = [(m, ⟨"local-2", 1, none, 1⟩)] := by
  have hnone : ∀ k : PeerID, (init ourPeerId).pool.connections[k]? = none := by
    simp [init, ConnectionPool.new]
  let peer₀ : PeerInfo := ⟨"local-1", 0, none, 0⟩
  let peer₁ : PeerInfo := ⟨"local-2", 1, none, 1⟩
  let pool₁ := (init ourPeerId).pool.insert n peer₀
  let pool₂ := pool₁.insert m peer₁
  have hm : pool₁.connections[m]? = none := by
    rw [ConnectionPool.getElem?_insert, if_neg hne, hnone]
  have hn₂ : pool₂.connections[n]? = some peer₀ := by
    rw [ConnectionPool.getElem?_insert, if_neg hne.symm, ConnectionPool.getElem?_insert, if_pos rfl]
  have hm₂ : pool₂.connections[m]? = some peer₁ := by
    rw [ConnectionPool.getElem?_insert, if_pos rfl]
  have hm₃ : (pool₂.remove n).connections[m]? = some peer₁ := by
    rw [ConnectionPool.getElem?_remove, if_neg hne, hm₂]
  refine ⟨_, exec_cons_eq_some.mpr ⟨_, step_insert_of (hnone n), exec_cons_eq_some.mpr
    ⟨_, step_insert_of hm, exec_cons_eq_some.mpr ⟨_, rfl, exec_cons_eq_some.mpr ⟨_, rfl,
    exec_cons_eq_some.mpr ⟨_, step_written_of rfl rfl hbody hn₂, exec_cons_eq_some.mpr
    ⟨_, step_written_of rfl rfl hbody hm₂, exec_cons_eq_some.mpr ⟨_, step_remove_of rfl rfl hn₂,
    exec_cons_eq_some.mpr ⟨_, step_remove_of rfl rfl hm₃, exec_cons_eq_some.mpr ⟨_, rfl,
    exec_cons_eq_some.mpr ⟨_, rfl, exec_cons_eq_some.mpr ⟨_, rfl,
    (exec_singleton _ _).trans rfl⟩⟩⟩⟩⟩⟩⟩⟩⟩⟩⟩, ?_, rfl, rfl⟩
  intro c call hcall
  rcases c with _ | _ | c
  · cases hcall
    rfl
  · cases hcall
    rfl
  · cases hcall

theorem not_announced_twoQuits {n m : PeerID} (hne : n ≠ m) (ourPeerId : PeerID) : ∃ s,
    exec (step (listCodec [.quit pingTimeout])) (init ourPeerId) (twoQuits n m pingTimeout) =
      some s ∧ s.Quiet ∧ s.removals n = 1 ∧ s.announcements n = 0 := by
  have hbody : (listCodec [.quit pingTimeout]).rawBytes (.quit pingTimeout) = .ok [0] := rfl
  obtain ⟨s, hrun, hquiet, hremoved, hfired⟩ := exec_twoQuits hne ourPeerId hbody
  refine ⟨s, hrun, hquiet, ?_, ?_⟩
  · rw [removals, hremoved]
    simp [hne.symm]
  · rw [announcements, hfired]
    simp [hne.symm]

/-- **A removal is not announced**: the read task of the peer has removed it, has aborted itself
by that, and ends while it waits for the lock of the listeners. -/
theorem removal_is_not_announced : ∃ s,
    exec (step (listCodec [.quit pingTimeout])) (init ⟨realSha256 []⟩)
      (twoQuits ⟨realSha256 [1]⟩ ⟨realSha256 [2]⟩ pingTimeout) = some s ∧ s.Quiet ∧
      s.removals ⟨realSha256 [1]⟩ = 1 ∧ s.announcements ⟨realSha256 [1]⟩ = 0 :=
  not_announced_twoQuits (by decide +kernel) _

/-- A call was lost in that run. -/
theorem removals_announced_iff_twoQuits :
    ¬ Meets (step (listCodec [.quit pingTimeout])) Unhurried (init ⟨realSha256 []⟩)
      (twoQuits ⟨realSha256 [1]⟩ ⟨realSha256 [2]⟩ pingTimeout) := by
  have hne : (⟨realSha256 [1]⟩ : PeerID) ≠ ⟨realSha256 [2]⟩ := by decide +kernel
  obtain ⟨s, hrun, hquiet, hremovals, hannouncements⟩ :=
    not_announced_twoQuits hne ⟨realSha256 []⟩
  rw [← removals_announced_iff _ hrun hquiet]
  intro hall
  cases hremovals.symm.trans ((hall _).symm.trans hannouncements)

end HangupState

end Tewta
