import Tewta.Node.Correlation
import Tewta.Node.DhtLookup.Runs
import Tewta.Node.Requests.Removals

/-!
# The connections of a lookup

A single-provider lookup that had to connect disconnects once it has its answer.  As long
as every lookup gets there, `dht_lookup` leaves no connection behind: `OwnRequest` is what
holds of a request with a connection of its own, and `LookupInv` says that every connection
that was opened belongs to such a request or was removed.

The first values make `dht_lookup` return, and then the other lookups are dropped wherever
they stand, with their connections in the pool.
-/

namespace Tewta

open Broadcast NodeState Transition

/-! ### What is said -/

namespace LookupState

/-- Once `dht_lookup` has returned, every connection of its lookups was removed. -/
def Temporary (s : LookupState) : Prop :=
  ∀ values, s.status = .returned values → ∀ n stream, (n, stream) ∈ s.opened →
    s.ask.node.Gone stream

/-- A lookup that finishes with values finishes alone: the connections that other lookups
have opened, and that are still at work, were removed. -/
def NothingOpen (codec : Codec Bytes) (s : LookupState) : LookupLabel → Prop
  | .request i writes => ∀ provider r own ask values,
      s.lookups[i]? = some ⟨provider, .requesting r own⟩ →
      s.ask.step codec (.run r writes) = some ask →
      result ask ⟨provider, .requesting r own⟩ = some (.ok (.found values)) →
      ∀ j provider' r' stream, j ≠ i →
        s.lookups[j]? = some ⟨provider', .requesting r' (some stream)⟩ → s.ask.node.Gone stream
  | _ => True

end LookupState

/-! ### The request of a lookup -/

/-- A request whose connection, if it is its own, has been dealt with. -/
def Phase.isOver : Phase → Bool
  | .closing _ .announcing => true
  | .ended _ => true
  | _ => false

/-- The request of a lookup on a provider: if its connection is its own it closes it, and
once it is over the connection was removed. -/
structure OwnRequest (ask : AskState) (n : PeerID) (own : Option StreamId) (req : Request) :
    Prop where
  topic : req.topic = .findDhtValueResp
  peerId : req.peerId = n
  closes : req.closes = own.isSome
  held : ∀ stream, own = some stream → ask.Held n stream
  ended : ∀ stream, own = some stream → req.phase.isOver = true → ask.node.Gone stream

namespace AskState

variable {codec : Codec Bytes} {s s' : AskState} {r : ℕ} {req : Request}

theorem requests_of_step {l : AskLabel} (h : s.step codec l = some s') (hl : l.request? ≠ some r)
    (hr : s.requests r = some req) : s'.requests r = some req := by
  have hother : ∀ {r' : ℕ} {new : Request}, r ≠ r' →
      s'.requests = Function.update s.requests r' (some new) → s'.requests r = some req := by
    intro r' new hne hrequests
    rw [hrequests]
    exact (Function.update_of_ne hne _ _).trans hr
  have hne : ∀ {r' : ℕ}, l.request? = some r' → r ≠ r' := by
    rintro r' hl' rfl
    exact hl hl'
  cases step_cases h with
  | node =>
    rw [requests_afterNode]
    exact hr
  | ask hnone =>
    refine hother ?_ rfl
    rintro rfl
    rw [hr] at hnone
    cases hnone
  | listen => exact hother (hne rfl) rfl
  | send => exact hother (hne rfl) rfl
  | ignore => exact hr
  | accept => exact hother (hne rfl) requests_setPhase
  | close => exact hother (hne rfl) requests_setPhase
  | fail _ _ _ hl =>
    refine hother (hne ?_) requests_setPhase
    rcases hl with rfl | ⟨writes, rfl⟩ <;> rfl
  | timeout => exact hother (hne rfl) requests_setPhase

theorem held_of_insert {n : PeerID} {addr : String}
    (h : s.step codec (.node (.insert n addr)) = some s')
    (hn : s.node.pool.contains n = false) : s'.Held n s.node.next := by
  have hnone : s.node.pool.connections[n]? = none := by
    rw [ConnectionPool.contains_eq_isSome] at hn
    exact Option.not_isSome_iff_eq_none.mp (by rw [hn]; decide)
  have heq : s.afterNode (s.node.insertPeer codec n addr) = s' := Option.some.inj h
  subst heq
  rw [Held, node_afterNode, insertPeer_of_none codec addr hnone]
  exact Or.inl ⟨_, (ConnectionPool.getElem?_insert _ _ _ _).trans (if_pos rfl), rfl⟩

theorem gone_of_ended {writes : Bool} {answer : Option PacketEvent}
    (h : s.step codec (.run r writes) = some s') (hr' : s'.requests r = some req)
    (hended : req.phase = .ended answer) {stream : StreamId} (hgone : s'.node.Gone stream) :
    s.node.Gone stream := by
  cases step_cases h with
  | listen => exact hgone
  | send _ _ _ hnode =>
    rcases sendPacket_cases hnode with rfl | ⟨peer', body, -, -, -, rfl⟩ <;> exact hgone
  | ignore => exact hgone
  | accept =>
    rw [node_setPhase] at hgone
    exact hgone
  | @close _ req₀ answer₀ stage node next _ _ _ hsec =>
    rw [node_setPhase] at hgone
    rw [requests_setPhase] at hr'
    have hreq := (Function.update_self _ _ _).symm.trans hr'
    cases hreq
    cases next with
    | some stage => cases hended
    | none =>
      rcases disconnectSection_cases hsec with ⟨-, hnext, -⟩ |
        ⟨-, ⟨-, -, rfl⟩ | ⟨peer, hnext, -⟩⟩ | ⟨-, -, rfl⟩
      · cases hnext
      · exact hgone
      · cases hnext
      · exact hgone
  | fail =>
    rw [node_setPhase] at hgone
    exact hgone

end AskState

namespace OwnRequest

variable {codec : Codec Bytes} {ask ask' : AskState} {n : PeerID} {own : Option StreamId}
  {req : Request} {r : ℕ}

theorem frame (h : OwnRequest ask n own req) {l : AskLabel}
    (hstep : ask.step codec l = some ask') : OwnRequest ask' n own req :=
  ⟨h.topic, h.peerId, h.closes, fun stream hown => (h.held stream hown).step hstep,
    fun stream hown hover => AskState.gone_of_step (h.ended stream hown hover) hstep⟩

theorem update (h : OwnRequest ask n own req) {l : AskLabel}
    (hstep : ask.step codec l = some ask') {req' : Request} (htopic : req'.topic = req.topic)
    (hpeer : req'.peerId = req.peerId) (hcloses : req'.closes = req.closes)
    (hover : own.isSome = true → req'.phase.isOver = true →
      req.phase.isOver = true ∨ ask'.node.pool.connections[n]? = none) :
    OwnRequest ask' n own req' := by
  refine ⟨htopic.trans h.topic, hpeer.trans h.peerId, hcloses.trans h.closes,
    fun stream hown => (h.held stream hown).step hstep, fun stream hown hover' => ?_⟩
  rcases hover (by rw [hown]; rfl) hover' with hold | hnone
  · exact AskState.gone_of_step (h.ended stream hown hold) hstep
  · exact ((h.held stream hown).step hstep).gone hnone

/-- **A section of the request of a lookup** keeps it in order. -/
theorem run (h : OwnRequest ask n own req) (hr : ask.requests r = some req) {writes : Bool}
    (hstep : ask.step codec (.run r writes) = some ask') :
    ∃ req', ask'.requests r = some req' ∧ OwnRequest ask' n own req' := by
  cases AskState.step_cases hstep with
  | listen hr' =>
    obtain rfl := Option.some.inj (hr'.symm.trans hr)
    exact ⟨_, Function.update_self _ _ _, h.update hstep rfl rfl rfl fun _ hover => Or.inl hover⟩
  | send hr' =>
    obtain rfl := Option.some.inj (hr'.symm.trans hr)
    exact ⟨_, Function.update_self _ _ _, h.update hstep rfl rfl rfl fun _ hover => Or.inl hover⟩
  | ignore hr' => exact ⟨_, hr, h.frame hstep⟩
  | @accept _ req₀ x event rest _ hr' =>
    obtain rfl := Option.some.inj (hr'.symm.trans hr)
    refine ⟨_, AskState.requests_setPhase_self, h.update hstep rfl rfl rfl fun hown hover => ?_⟩
    -- a lookup with a connection of its own has to close it first
    have hcloses : req₀.closes = true := h.closes.trans hown
    have hphase : req₀.answered event = .closing (some event) .quitting := by
      have htopic : req₀.question.topic = .findDhtValueResp := h.topic
      rw [Request.answered, hcloses]
      cases hq : req₀.question with
      | ping =>
        rw [hq] at htopic
        cases htopic
      | _ => rfl
    rw [hphase] at hover
    cases hover
  | @close _ req₀ answer stage node next _ hr' hphase hsec =>
    obtain rfl := Option.some.inj (hr'.symm.trans hr)
    refine ⟨_, AskState.requests_setPhase_self, h.update hstep rfl rfl rfl fun _ hover => ?_⟩
    rw [AskState.node_setPhase, hphase, ← h.peerId]
    rcases disconnectSection_cases hsec with ⟨-, rfl, -⟩ |
      ⟨-, ⟨-, hn, rfl⟩ | ⟨peer, -, -, rfl⟩⟩ | ⟨rfl, -⟩
    · cases hover
    · exact Or.inr hn
    · refine Or.inr ?_
      rw [getElem?_removePeer, if_pos rfl]
    · exact Or.inl rfl
  | @fail _ r' req₀ phase hr' _ hphase hl =>
    obtain rfl : r = r' := by
      rcases hl with hl | ⟨_, hl⟩ <;> cases hl
      rfl
    obtain rfl := Option.some.inj (hr'.symm.trans hr)
    refine ⟨_, AskState.requests_setPhase_self, h.update hstep rfl rfl rfl fun _ hover => ?_⟩
    rcases hphase with rfl | rfl <;> cases hover

end OwnRequest

/-! ### All lookups -/

def LookupStatus.isOver : LookupStatus → Bool
  | .returned _ => true
  | .panicked => true
  | _ => false

/-- Every connection that was opened was removed, or belongs to a lookup at work, whose
request is in order. -/
structure LookupInv (s : LookupState) : Prop where
  owned : ∀ n stream, (n, stream) ∈ s.opened →
    s.ask.node.Gone stream ∨ ∃ i provider r, s.At i provider r (some stream)
  opens : ∀ i provider r stream, s.At i provider r (some stream) →
    (provider.1, stream) ∈ s.opened
  requests : ∀ i provider r own, s.At i provider r own →
    ∃ req, s.ask.requests r = some req ∧ OwnRequest s.ask provider.1 own req
  apart : ∀ i j provider provider' r own own', s.At i provider r own →
    s.At j provider' r own' → i = j

namespace LookupInv

open LookupState

variable {codec : Codec Bytes} {s s' : LookupState}

theorem other (inv : LookupInv s) {l : AskLabel} {ask : AskState}
    (h : s.ask.step codec l = some ask)
    (hl : ∀ i provider r own, s.At i provider r own → l.request? ≠ some r) :
    LookupInv { s with ask } := by
  refine ⟨fun n stream hmem => ?_, inv.opens, fun i provider r own hi => ?_, inv.apart⟩
  · rcases inv.owned n stream hmem with hgone | hlookup
    · exact Or.inl (AskState.gone_of_step hgone h)
    · exact Or.inr hlookup
  · obtain ⟨req, hr, hreq⟩ := inv.requests i provider r own hi
    exact ⟨req, AskState.requests_of_step h (hl i provider r own hi) hr, hreq.frame h⟩

theorem request (inv : LookupInv s) {r : ℕ} {writes : Bool} {ask : AskState}
    (h : s.ask.step codec (.run r writes) = some ask) : LookupInv { s with ask } := by
  refine ⟨fun n stream hmem => ?_, inv.opens, fun j provider' r' own' hj => ?_, inv.apart⟩
  · rcases inv.owned n stream hmem with hgone | hlookup
    · exact Or.inl (AskState.gone_of_step hgone h)
    · exact Or.inr hlookup
  · obtain ⟨req, hr, hreq⟩ := inv.requests j provider' r' own' hj
    by_cases heq : r' = r
    · subst heq
      exact hreq.run hr h
    · refine ⟨req, AskState.requests_of_step h ?_ hr, hreq.frame h⟩
      intro hrun
      exact heq (Option.some.inj hrun).symm

theorem reindex (inv : LookupInv s) {f : ℕ → ℕ} (hf : Function.Injective f)
    (hask : s'.ask = s.ask) (hopened : s'.opened = s.opened)
    (hat : ∀ i provider r own, s'.At i provider r own → s.At (f i) provider r own)
    (hkept : ∀ i provider r stream, s.At i provider r (some stream) →
      s.ask.node.Gone stream ∨ ∃ j, s'.At j provider r (some stream)) : LookupInv s' := by
  constructor
  case owned =>
    intro n stream hmem
    rw [hopened] at hmem
    rw [hask]
    rcases inv.owned n stream hmem with hgone | ⟨i, provider, r, hi⟩
    · exact Or.inl hgone
    · rcases hkept i provider r stream hi with hgone | ⟨j, hj⟩
      · exact Or.inl hgone
      · exact Or.inr ⟨j, provider, r, hj⟩
  case opens =>
    intro i provider r stream hi
    rw [hopened]
    exact inv.opens _ _ _ _ (hat i provider r _ hi)
  case requests =>
    intro i provider r own hi
    rw [hask]
    exact inv.requests _ _ _ _ (hat i provider r own hi)
  case apart =>
    intro i j provider provider' r own own' hi hj
    exact hf (inv.apart _ _ _ _ _ _ _ (hat _ _ _ _ hi) (hat _ _ _ _ hj))

theorem setStage (inv : LookupInv s) {i : ℕ} {provider provider' : PeerID × String}
    {stage stage' : LookupStage} (hi : s.lookups[i]? = some ⟨provider, stage⟩)
    (hstage : stage.request? = none) (hstage' : stage'.request? = none) :
    LookupInv (s.setStage i provider' stage') := by
  refine inv.reindex Function.injective_id rfl rfl ?_ ?_
  · intro j provider₁ r own hj
    rcases at_setStage.mp hj with ⟨-, -, -, rfl⟩ | ⟨-, hj⟩
    · cases hstage'
    · exact hj
  · intro j provider₁ r stream hj
    refine Or.inr ⟨j, at_setStage.mpr (Or.inr ⟨?_, hj⟩)⟩
    rintro rfl
    cases hi.symm.trans hj
    cases hstage

theorem filled (inv : LookupInv s) : LookupInv s.fill := by
  obtain ⟨new, hnew, -⟩ := fill_spec s
  refine inv.reindex Function.injective_id rfl rfl ?_ ?_
  · intro i provider r own hi
    rw [At, hnew] at hi
    rcases lt_or_ge i s.lookups.length with hlt | hge
    · rw [List.getElem?_append_left hlt] at hi
      exact hi
    · rw [List.getElem?_append_right hge] at hi
      obtain ⟨provider', -, hchecking⟩ := List.mem_map.mp (List.mem_of_getElem? hi)
      cases hchecking
  · intro i provider r stream hi
    refine Or.inr ⟨i, ?_⟩
    rw [At, hnew, List.getElem?_append_left (List.getElem?_eq_some_iff.mp hi).1]
    exact hi

theorem eraseIdx (inv : LookupInv s) {i : ℕ} {providers : List (PeerID × String)}
    (hgone : ∀ provider r stream, s.At i provider r (some stream) → s.ask.node.Gone stream) :
    LookupInv { s with lookups := s.lookups.eraseIdx i, providers } := by
  have hf : Function.Injective fun j => if j < i then j else j + 1 := by
    intro j k hjk
    dsimp only at hjk
    split at hjk <;> split at hjk <;> omega
  refine inv.reindex hf rfl rfl ?_ ?_
  · intro j provider r own hj
    have hj' : (s.lookups.eraseIdx i)[j]? = _ := hj
    rw [List.getElem?_eraseIdx] at hj'
    show s.lookups[if j < i then j else j + 1]? = _
    split at hj'
    · rename_i hlt
      rw [if_pos hlt]
      exact hj'
    · rename_i hge
      rw [if_neg hge]
      exact hj'
  · intro j provider r stream hj
    rcases lt_trichotomy j i with hlt | rfl | hgt
    · refine Or.inr ⟨j, ?_⟩
      show (s.lookups.eraseIdx i)[j]? = _
      rw [List.getElem?_eraseIdx, if_pos hlt]
      exact hj
    · exact Or.inl (hgone provider r stream hj)
    · refine Or.inr ⟨j - 1, ?_⟩
      show (s.lookups.eraseIdx i)[j - 1]? = _
      rw [List.getElem?_eraseIdx, if_neg (by omega), Nat.sub_add_cancel (by omega)]
      exact hj

theorem start (inv : LookupInv s) {i r : ℕ} {provider : PeerID × String} {stage : LookupStage}
    {own : Option StreamId} {ask : AskState} {opened : List (PeerID × StreamId)}
    (hi : s.lookups[i]? = some ⟨provider, stage⟩) (hstage : stage.request? = none)
    (hopened : ∀ x, x ∈ opened ↔
      x ∈ s.opened ∨ ∃ stream, own = some stream ∧ x = (provider.1, stream))
    (hheld : ∀ stream, own = some stream → s.ask.Held provider.1 stream)
    (h : s.ask.step codec (.ask r (.findDhtValue s.key) provider.1 own.isSome) = some ask) :
    LookupInv ({ s with ask, opened }.setStage i provider (.requesting r own)) := by
  obtain ⟨hnone, req, hr, htopic, hpeer, hcloses, hasking, -⟩ := AskState.requests_of_ask h
  have hold : ∀ j provider' own', ¬ s.At j provider' r own' := by
    intro j provider' own' hj
    obtain ⟨req, hr, -⟩ := inv.requests _ _ _ _ hj
    rw [hnone] at hr
    cases hr
  constructor
  case owned =>
    intro n stream hmem
    rcases (hopened _).mp hmem with hmem | ⟨stream', rfl, heq⟩
    · rcases inv.owned n stream hmem with hgone | ⟨j, provider', r', hj⟩
      · exact Or.inl (AskState.gone_of_step hgone h)
      · refine Or.inr ⟨j, provider', r', at_setStage.mpr (Or.inr ⟨?_, hj⟩)⟩
        rintro rfl
        cases hi.symm.trans hj
        cases hstage
    · cases heq
      exact Or.inr ⟨i, provider, r, at_setStage.mpr
        (Or.inl ⟨rfl, (List.getElem?_eq_some_iff.mp hi).1, rfl, rfl⟩)⟩
  case opens =>
    intro j provider' r' stream hj
    refine (hopened _).mpr ?_
    rcases at_setStage.mp hj with ⟨-, -, rfl, heq⟩ | ⟨-, hj⟩
    · cases heq
      exact Or.inr ⟨stream, rfl, rfl⟩
    · exact Or.inl (inv.opens _ _ _ _ hj)
  case requests =>
    intro j provider' r' own' hj
    rcases at_setStage.mp hj with ⟨-, -, rfl, heq⟩ | ⟨-, hj⟩
    · cases heq
      refine ⟨req, hr, htopic, hpeer, hcloses, fun stream hown => (hheld stream hown).step h,
        fun _ _ hover => ?_⟩
      rw [hasking] at hover
      cases hover
    · obtain ⟨req', hr', hreq⟩ := inv.requests _ _ _ _ hj
      exact ⟨req', AskState.requests_of_step h (by rintro ⟨⟩) hr', hreq.frame h⟩
  case apart =>
    intro j k provider' provider'' r' own' own'' hj hk
    rcases at_setStage.mp hj with ⟨rfl, -, -, heq⟩ | ⟨-, hj⟩ <;>
      rcases at_setStage.mp hk with ⟨rfl, -, -, heq'⟩ | ⟨-, hk⟩
    · rfl
    · cases heq
      exact absurd hk (hold _ _ _)
    · cases heq'
      exact absurd hj (hold _ _ _)
    · exact inv.apart _ _ _ _ _ _ _ hj hk

end LookupInv

/-! ### The end of a lookup -/

/-- What `dht_lookup` keeps: its lookups are in order, and once it is over there are none. -/
structure LookupOk (s : LookupState) : Prop where
  running : s.status.isOver = false → LookupInv s
  idle : s.status.isOver = true → s.lookups = []
  temporary : s.Temporary

namespace LookupInv

open LookupState

variable {codec : Codec Bytes} {s : LookupState}

theorem ok (inv : LookupInv s) (hs : s.status.isOver = false) : LookupOk s := by
  refine ⟨fun _ => inv, fun hover => ?_, fun values hstatus => ?_⟩
  · rw [hs] at hover
    cases hover
  · rw [hstatus] at hs
    cases hs

theorem fill_ok (inv : LookupInv s) (hs : s.status.isOver = false) : LookupOk s.fill := by
  have inv' := inv.filled
  obtain ⟨-, -, hcase⟩ := fill_spec s
  rcases hcase with hstatus | ⟨hstatus, hnil⟩
  · exact inv'.ok (by rw [hstatus, hs])
  · refine ⟨fun _ => inv', fun _ => hnil, fun values _ n stream hmem => ?_⟩
    rcases inv'.owned n stream hmem with hgone | ⟨i, provider, r, hi⟩
    · exact hgone
    · rw [At, hnil] at hi
      cases hi

/-- **A lookup that is over has closed its connection.** -/
theorem gone_of_result (inv : LookupInv s) {i r : ℕ} {provider : PeerID × String}
    {stream : StreamId} {res : Except SingleProviderLookupError DhtLookupResult}
    (hi : s.At i provider r (some stream))
    (hres : result s.ask ⟨provider, .requesting r (some stream)⟩ = some res) :
    s.ask.node.Gone stream := by
  obtain ⟨req, hr, hreq⟩ := inv.requests _ _ _ _ hi
  rcases result_cases hres with ⟨e, hstage, -⟩ | ⟨r', own, req', answer, hstage, hr', hphase⟩
  · cases hstage
  · cases hstage
    obtain rfl := Option.some.inj (hr.symm.trans hr')
    refine hreq.ended stream rfl ?_
    rw [hphase]
    rfl

/-- **`select_all` returns**, with an answer, an error or a panic, or goes on waiting. -/
theorem settle_ok (inv : LookupInv s) (hs : s.status.isOver = false) {i : ℕ}
    (hopen : ∀ lookup values, s.lookups[i]? = some lookup →
      result s.ask lookup = some (.ok (.found values)) →
      ∀ j provider r stream, j ≠ i → s.At j provider r (some stream) → s.ask.node.Gone stream) :
    LookupOk (s.settle codec i) := by
  rw [settle]
  split
  · rename_i lookup hi
    have hgone : ∀ res, result s.ask lookup = some res → ∀ provider r stream,
        s.At i provider r (some stream) → s.ask.node.Gone stream := by
      intro res hres provider r stream hi'
      cases hi.symm.trans hi'
      exact inv.gone_of_result hi' hres
    split
    · refine ⟨?_, fun _ => rfl, ?_⟩
      · rintro ⟨⟩
      · rintro values ⟨⟩
    · split
      · rename_i values hres
        refine ⟨?_, fun _ => rfl, fun _ _ n stream hmem => ?_⟩
        · rintro ⟨⟩
        rw [node_finish]
        rcases inv.owned n stream hmem with hgone' | ⟨j, provider, r, hj⟩
        · exact hgone'
        · by_cases hij : j = i
          · subst hij
            exact hgone _ hres provider r stream hj
          · exact hopen lookup values hi hres j provider r stream hij hj
      · rename_i peers hres
        exact (inv.eraseIdx (hgone _ hres)).fill_ok hs
      · rename_i e hres
        exact (inv.eraseIdx (hgone _ hres)).fill_ok hs
      · exact inv.ok hs
  · exact inv.ok hs

theorem fail_ok (inv : LookupInv s) (hs : s.status.isOver = false) {i : ℕ}
    {provider : PeerID × String} {stage : LookupStage}
    (hi : s.lookups[i]? = some ⟨provider, stage⟩) (hstage : stage.request? = none)
    (e : SingleProviderLookupError) :
    LookupOk ((s.setStage i provider (.failed e)).settle codec i) := by
  refine (inv.setStage hi hstage rfl).settle_ok hs ?_
  intro lookup values hi' hres
  have hset : (s.setStage i provider (.failed e)).lookups[i]? = some ⟨provider, .failed e⟩ := by
    show (s.lookups.set i _)[i]? = _
    rw [List.getElem?_set_self (List.getElem?_eq_some_iff.mp hi).1]
  cases hset.symm.trans hi'
  cases hres

end LookupInv

namespace LookupOk

open LookupState

variable {codec : Codec Bytes} {s s' : LookupState}

/-- What has lookups is not over. -/
theorem lookupInv (hok : LookupOk s) {i : ℕ} {lookup : SingleLookup}
    (hi : s.lookups[i]? = some lookup) : s.status.isOver = false ∧ LookupInv s := by
  cases hs : s.status.isOver with
  | false => exact ⟨rfl, hok.running hs⟩
  | true =>
    rw [hok.idle hs] at hi
    cases hi

theorem owns_of_at {i r : ℕ} {provider : PeerID × String} {own : Option StreamId}
    (hi : s.At i provider r own) : s.owns (some r) = true := by
  rw [owns, Bool.and_eq_true, List.any_eq_true]
  exact ⟨rfl, _, List.mem_of_getElem? hi, decide_eq_true rfl⟩

/-- **A step keeps the lookups in order**, if it does not leave a connection open. -/
theorem step (hok : LookupOk s) {l : LookupLabel} (hopen : s.NothingOpen codec l)
    (h : s.step codec l = some s') : LookupOk s' := by
  cases l with
  | other l =>
    rw [LookupState.step] at h
    split at h
    · cases h
    · rename_i howns
      obtain ⟨ask, hask, rfl⟩ := Option.map_eq_some_iff.mp h
      refine ⟨fun hs => (hok.running hs).other hask ?_, hok.idle,
        fun values hstatus n stream hmem =>
          AskState.gone_of_step (hok.temporary values hstatus n stream hmem) hask⟩
      intro i provider r own hi hl
      rw [hl] at howns
      exact howns (owns_of_at hi)
  | begin =>
    rw [LookupState.step] at h
    split at h
    · rename_i hs
      cases h
      have inv := hok.running (by rw [hs]; rfl)
      have inv' : LookupInv { s with
          providers := (sortByDistance s.key s.ask.node.pool.peersWithAddrs).reverse
          status := .running } := ⟨inv.owned, inv.opens, inv.requests, inv.apart⟩
      exact inv'.fill_ok rfl
    · cases h
  | contains i r =>
    rw [LookupState.step] at h
    split at h
    · rename_i provider hi
      obtain ⟨hs, inv⟩ := hok.lookupInv hi
      split at h
      · obtain ⟨ask, hask, rfl⟩ := Option.map_eq_some_iff.mp h
        exact (inv.start hi rfl (by simp) (fun _ hown => by cases hown) hask).ok hs
      · cases h
        exact (inv.setStage hi rfl rfl).ok hs
    · cases h
  | connect i connects =>
    rw [LookupState.step] at h
    split at h
    · rename_i provider hi
      obtain ⟨hs, inv⟩ := hok.lookupInv hi
      split at h
      · cases h
        exact (inv.setStage hi rfl rfl).ok hs
      · cases h
        exact inv.fail_ok hs hi rfl _
    · cases h
  | handshake i r result =>
    rw [LookupState.step] at h
    split at h
    · rename_i provider hi
      obtain ⟨hs, inv⟩ := hok.lookupInv hi
      split at h
      · rename_i e
        cases h
        exact inv.fail_ok hs hi rfl _
      · rename_i addr
        obtain ⟨ask, hask, h⟩ := Option.bind_eq_some_iff.mp h
        have inv' : LookupInv { s with ask } := inv.other hask fun _ _ _ _ _ => by rintro ⟨⟩
        split at h
        · cases h
          exact inv'.fail_ok hs hi rfl _
        · rename_i hcontains
          obtain ⟨ask', hask', rfl⟩ := Option.map_eq_some_iff.mp h
          refine (inv'.start hi rfl (by simp) ?_ hask').ok hs
          intro stream hown
          cases hown
          exact AskState.held_of_insert hask (by simpa using hcontains)
    · cases h
  | request i writes =>
    rw [LookupState.step] at h
    split at h
    · rename_i provider r own hi
      obtain ⟨hs, inv⟩ := hok.lookupInv hi
      obtain ⟨ask, hask, rfl⟩ := Option.map_eq_some_iff.mp h
      refine (inv.request hask).settle_ok hs ?_
      intro lookup values hi' hres j provider' r' stream hj hat
      cases hi.symm.trans hi'
      exact AskState.gone_of_step
        (hopen provider r own ask values hi hask hres j provider' r' stream hj hat) hask
    · cases h

theorem init (ourPeerId : PeerID) (key : KeyID) : LookupOk (LookupState.init ourPeerId key) := by
  have hnil : ∀ i provider r own, ¬ (LookupState.init ourPeerId key).At i provider r own := by
    intro i provider r own hi
    cases hi
  refine LookupInv.ok ⟨fun n stream hmem => ?_, fun i provider r stream hi => ?_,
    fun i provider r own hi => ?_, fun i j provider provider' r own own' hi => ?_⟩ rfl
  · cases hmem
  · exact absurd hi (hnil _ _ _ _)
  · exact absurd hi (hnil _ _ _ _)
  · exact absurd hi (hnil _ _ _ _)

/-- **A lookup that is left behind keeps its connection**: where another one has it open,
`dht_lookup` returns and it is still in the pool. -/
theorem not_temporary (hok : LookupOk s) {l : LookupLabel} (hopen : ¬ s.NothingOpen codec l)
    (h : s.step codec l = some s') : ¬ s'.Temporary := by
  cases l with
  | request i writes =>
    simp only [NothingOpen, not_forall] at hopen
    obtain ⟨provider, r, own, ask, values, hi, hask, hres, j, provider', r', stream, hj, hat,
      hgone⟩ := hopen
    obtain ⟨hs, inv⟩ := hok.lookupInv hi
    have hmem := inv.opens _ _ _ _ hat
    rw [LookupState.step, hi] at h
    dsimp only at h
    rw [hask, Option.map_some] at h
    cases h
    rw [settle_of_found (s := { s with ask }) hi hres]
    intro htemporary
    have hgone' := htemporary _ rfl _ _ hmem
    rw [node_finish] at hgone'
    rcases result_cases hres with ⟨e, hstage, -⟩ | ⟨r₁, own₁, req, answer, hstage, hr, hphase⟩
    · cases hstage
    · cases hstage
      exact hgone (AskState.gone_of_ended hask hr hphase hgone')
  | _ => exact absurd trivial hopen

end LookupOk

/-- **The connections of a lookup are temporary exactly when it leaves none behind.**  In
every run, whatever the node and its peers do and in whatever order the lookups come to an
end, once `dht_lookup` has returned every connection that one of its lookups has inserted was
removed, if and only if no lookup finishes with values while another one has a connection of
its own in the pool. -/
theorem lookup_connections_are_temporary_iff (codec : Codec Bytes) (ourPeerId : PeerID)
    (key : KeyID) (labels : List LookupLabel) {s : LookupState}
    (h : exec (LookupState.step codec) (LookupState.init ourPeerId key) labels = some s) :
    Always (LookupState.step codec) LookupState.Temporary (LookupState.init ourPeerId key) labels ↔
      Meets (LookupState.step codec) (LookupState.NothingOpen codec)
        (LookupState.init ourPeerId key) labels :=
  always_iff_meets (fun _ _ _ hok hopen hstep => hok.step hopen hstep)
    (fun _ hok => hok.temporary) (fun _ _ _ hok hopen hstep => hok.not_temporary hopen hstep)
    h (LookupOk.init ourPeerId key)

/-! ### A lookup that is left behind -/

def nearPeer : PeerID := ⟨realSha256 [1]⟩

def farPeer : PeerID := ⟨realSha256 [6]⟩

theorem farPeer_ne_nearPeer : farPeer ≠ nearPeer := by decide +kernel

/-- Values for the first request. -/
def valuesResponse : Packet := .findDhtValueResp { requestId := 0, result := .found [] }

/-- A codec for a lookup that is answered, and for a Quit. -/
def valuesCodec : Codec Bytes :=
  listCodec [(Question.findDhtValue lookedUpKey).packet 0, valuesResponse,
    .quit (closingQuit none)]

/-- A node with two connections. -/
def twoPeers (ourPeerId : PeerID) : NodeState :=
  (connected valuesCodec ourPeerId nearPeer).insertPeer valuesCodec farPeer "local-2"

theorem twoPeers_eq (ourPeerId : PeerID) : twoPeers ourPeerId =
    { (connected valuesCodec ourPeerId nearPeer).setTask 1 (.reading farPeer 1 []) with
      pool := (connected valuesCodec ourPeerId nearPeer).pool.insert farPeer
        ⟨"local-2", 1, none, 1⟩
      next := 2 } := by
  have hnone : (connected valuesCodec ourPeerId nearPeer).pool.connections[farPeer]? = none := by
    rw [connected_eq]
    refine (ConnectionPool.getElem?_insert _ _ _ _).trans ?_
    rw [if_neg farPeer_ne_nearPeer.symm]
    simp [ConnectionPool.new]
  rw [twoPeers, insertPeer_of_none valuesCodec "local-2" hnone, connected_eq]

theorem sortByDistance_twoPeers (ourPeerId : PeerID) :
    sortByDistance lookedUpKey (twoPeers ourPeerId).pool.peersWithAddrs =
      [(nearPeer, "local-1"), (farPeer, "local-2")] := by
  have hpeers : (twoPeers ourPeerId).pool.peersWithAddrs =
      [(nearPeer, "local-1"), (farPeer, "local-2")] := by
    rw [twoPeers_eq, connected_eq]
    show (((∅ : Std.ExtTreeMap PeerID PeerInfo).insert nearPeer ⟨"local-1", 0, none, 0⟩).insert
      farPeer ⟨"local-2", 1, none, 1⟩).toList.map (fun e => (e.1, e.2.addr)) = _
    decide +kernel
  rw [hpeers]
  refine List.mergeSort_of_pairwise (List.pairwise_pair.mpr ?_)
  decide +kernel

/-- The near one is read, nothing has arrived, and nothing was removed. -/
theorem twoPeers_spec (ourPeerId : PeerID) :
    (twoPeers ourPeerId).pool.connections[nearPeer]? = some ⟨"local-1", 0, none, 0⟩ ∧
      (twoPeers ourPeerId).pool.connections[farPeer]? = some ⟨"local-2", 1, none, 1⟩ ∧
      (twoPeers ourPeerId).tasks 0 = .reading nearPeer 0 [] ∧
      (twoPeers ourPeerId).inbound 0 = [] ∧ (twoPeers ourPeerId).closed 0 = false ∧
      (twoPeers ourPeerId).fired = [] ∧ (twoPeers ourPeerId).removed = [] ∧
      (twoPeers ourPeerId).next = 2 := by
  obtain ⟨htask, hin, hopen, hfired⟩ := connected_spec valuesCodec ourPeerId nearPeer
  rw [twoPeers_eq]
  refine ⟨?_, (ConnectionPool.getElem?_insert _ _ _ _).trans (if_pos rfl), ?_, hin, hopen, hfired,
    ?_, rfl⟩
  · refine (ConnectionPool.getElem?_insert _ _ _ _).trans ((if_neg farPeer_ne_nearPeer).trans ?_)
    exact getElem?_connected valuesCodec ourPeerId nearPeer
  · simp [NodeState.setTask, htask]
  · rw [connected_eq]
    rfl

/-- Both of them are looked up, once the node has the connections. -/
theorem exec_begin (ourPeerId : PeerID) :
    exec (LookupState.step valuesCodec) (.init ourPeerId lookedUpKey)
        [.other (.node (.insert nearPeer "local-1")), .other (.node (.insert farPeer "local-2")),
          .begin] =
      some
        { ask := { AskState.init ourPeerId with node := twoPeers ourPeerId }
          key := lookedUpKey
          providers := []
          alreadyQueried := [(farPeer, "local-2"), (nearPeer, "local-1")]
          lookups := [⟨(nearPeer, "local-1"), .checking⟩, ⟨(farPeer, "local-2"), .checking⟩]
          shouldComplete := false
          status := .running
          opened := [] } := by
  let s₀ : LookupState := { LookupState.init ourPeerId lookedUpKey with
    ask := { AskState.init ourPeerId with node := twoPeers ourPeerId } }
  have h₁ : exec (NodeState.step valuesCodec) (AskState.init ourPeerId).node
      [.insert nearPeer "local-1", .insert farPeer "local-2"] = some (twoPeers ourPeerId) := rfl
  have hfired := (twoPeers_spec ourPeerId).2.2.2.2.2.1
  have h₂ := AskState.exec_map_node (s := AskState.init ourPeerId) h₁ (by rw [hfired]; rfl)
  have h₃ : exec (LookupState.step valuesCodec) (.init ourPeerId lookedUpKey)
      [.other (.node (.insert nearPeer "local-1")), .other (.node (.insert farPeer "local-2"))] =
        some s₀ := by
    refine LookupState.exec_map_other (s := .init ourPeerId lookedUpKey) h₂ ?_
    intro l hl
    obtain ⟨l, -, rfl⟩ := List.mem_map.mp hl
    rfl
  have hproviders : (sortByDistance lookedUpKey (twoPeers ourPeerId).pool.peersWithAddrs).reverse =
      [(farPeer, "local-2"), (nearPeer, "local-1")] := by
    rw [sortByDistance_twoPeers]
    rfl
  have hnear : nearPeer ≠ lookedUpKey := by decide +kernel
  have hfar : farPeer ≠ lookedUpKey := by decide +kernel
  refine (exec_append_of h₃).trans ((exec_singleton _ _).trans ?_)
  rw [LookupState.step]
  exact congrArg some (LookupState.fill_pair hproviders rfl rfl hnear hfar)

/-- A lookup knows two peers.  It asks the near one, and the far one is disconnected. -/
def farGone : List LookupLabel :=
  [.other (.node (.insert nearPeer "local-1")), .other (.node (.insert farPeer "local-2")),
    .begin] ++ [.contains 0 0, .request 0 true, .request 0 true] ++
    ((hangUpOn farPeer).map AskLabel.node).map LookupLabel.other

/-- The near one answers. -/
def nearAnswers : List LookupLabel :=
  (AskState.respond 0 0 [1]).map LookupLabel.other ++ [.request 0 true]

/-- So the far one is asked on a connection that the lookup opens. -/
def leftOpen : List LookupLabel :=
  farGone ++ [.contains 1 1, .connect 1 true, .handshake 1 1 (.ok "remote-1")] ++ nearAnswers

/-- The near one was asked, and its read task waits for the answer. -/
structure NearAsked (ask : AskState) : Prop where
  request : ∃ req x, ask.requests 0 = some req ∧ req.phase = .asking ∧ req.todo = [] ∧
    req.listening = some x ∧ req.closes = false ∧ req.topic = .findDhtValueResp ∧
    (ask.listeners .findDhtValueResp).queue x.receiver = [] ∧
    (ask.listeners .findDhtValueResp).isOpen x.receiver = true ∧
    req.Answers ⟨ask.node.fired.length, nearPeer, valuesResponse⟩
  task : ask.node.tasks 0 = .reading nearPeer 0 []
  inbound : ask.node.inbound 0 = []
  closed : ask.node.closed 0 = false

theorem NearAsked.congr {ask ask' : AskState} (h : NearAsked ask)
    (hrequest : ask'.requests 0 = ask.requests 0) (hlisteners : ask'.listeners = ask.listeners)
    (hfired : ask'.node.fired = ask.node.fired) (htask : ask'.node.tasks 0 = ask.node.tasks 0)
    (hinbound : ask'.node.inbound = ask.node.inbound)
    (hclosed : ask'.node.closed = ask.node.closed) : NearAsked ask' := by
  obtain ⟨⟨req, x, hr, hreq⟩, ht, hin, hc⟩ := h
  refine ⟨⟨req, x, hrequest.trans hr, ?_⟩, htask.trans ht, ?_, ?_⟩
  · rw [hlisteners, hfired]
    exact hreq
  · rw [hinbound, hin]
  · rw [hclosed, hc]

theorem exec_nearAnswers {s : LookupState} (hat : s.At 0 (nearPeer, "local-1") 0 none)
    (h : NearAsked s.ask) : ∃ s', exec (LookupState.step valuesCodec) s nearAnswers = some s' ∧
      s'.status = .returned (some []) ∧ s'.opened = s.opened ∧
      s'.ask.node.removed = s.ask.node.removed := by
  obtain ⟨⟨req, x, hr, hphase, htodo, hx, hcloses, htopic, hqueue, hlistens, hanswers⟩, ht, hin,
    hclosed⟩ := h
  exact LookupState.exec_found hat hr hphase htodo hx hcloses htopic hqueue hlistens hanswers rfl
    rfl (show ([1] : Bytes).length < maxPacketSize by decide)
    (show valuesCodec.fromRawBytes [1] =
      .ok (.findDhtValueResp { requestId := 0, result := .found [] }) from rfl) ht hin hclosed

/-- What `farGone` leaves. -/
structure FarGone (s : LookupState) : Prop where
  asked : NearAsked s.ask
  lookups : s.lookups = [⟨(nearPeer, "local-1"), .requesting 0 none⟩,
    ⟨(farPeer, "local-2"), .checking⟩]
  providers : s.providers = []
  shouldComplete : s.shouldComplete = false
  running : s.status = .running
  gone : s.ask.node.pool.connections[farPeer]? = none
  unasked : s.ask.requests 1 = none
  next : s.ask.node.next = 2
  removed : ∀ x ∈ s.ask.node.removed, x.stream = 1

theorem exec_farGone (ourPeerId : PeerID) : ∃ s,
    exec (LookupState.step valuesCodec) (.init ourPeerId lookedUpKey) farGone = some s ∧
      FarGone s := by
  obtain ⟨hnear, hfar, htask, hin, hopen, hfired, hremoved, htwo⟩ := twoPeers_spec ourPeerId
  -- two lookups are started
  let s₁ : LookupState :=
    { ask := { AskState.init ourPeerId with node := twoPeers ourPeerId }
      key := lookedUpKey
      providers := []
      alreadyQueried := [(farPeer, "local-2"), (nearPeer, "local-1")]
      lookups := [⟨(nearPeer, "local-1"), .checking⟩, ⟨(farPeer, "local-2"), .checking⟩]
      shouldComplete := false
      status := .running
      opened := [] }
  have h₁ : exec (LookupState.step valuesCodec) (.init ourPeerId lookedUpKey)
      [.other (.node (.insert nearPeer "local-1")), .other (.node (.insert farPeer "local-2")),
        .begin] = some s₁ := exec_begin ourPeerId
  have hi₁ : s₁.lookups[0]? = some ⟨(nearPeer, "local-1"), .checking⟩ := rfl
  have hentry₁ : s₁.ask.node.pool.connections[(nearPeer, "local-1").1]? =
      some ⟨"local-1", 0, none, 0⟩ := hnear
  -- the near one is asked
  let s₂ := ({ s₁ with ask := s₁.ask.afterLookUp 0 lookedUpKey nearPeer false 0 }).setStage 0
    (nearPeer, "local-1") (.requesting 0 none)
  have h₂ : exec (LookupState.step valuesCodec) s₁
      [.contains 0 0, .request 0 true, .request 0 true] = some s₂ :=
    LookupState.exec_asked (s := s₁) hi₁ rfl hentry₁ (by rfl)
  have hentry₂ : s₂.ask.node.pool.connections[farPeer]? = some ⟨"local-2", 1, none, 1⟩ := hfar
  -- the far one is disconnected
  obtain ⟨node, hnode, hgone, htasks, hinbound, hclosed, hfired₃, hnext, hremoved₃⟩ :=
    NodeState.exec_hangUpOn (show s₂.ask.node.disconnects 0 = .notCalled from rfl) hentry₂
      (show valuesCodec.rawBytes (.quit (closingQuit none)) = .ok [2] from rfl)
  have hask₃ := AskState.exec_map_node (s := s₂.ask) hnode (by rw [hfired₃])
  have hothers : ∀ l ∈ (hangUpOn farPeer).map AskLabel.node, s₂.owns l.request? = false := by
    intro l hl
    obtain ⟨l, -, rfl⟩ := List.mem_map.mp hl
    rfl
  have h₃ := LookupState.exec_map_other (s := s₂) hask₃ hothers
  have hnil : s₂.ask.node.removed = [] := hremoved
  have hasked₂ : NearAsked s₂.ask :=
    ⟨⟨s₁.ask.lookedUp lookedUpKey nearPeer false 0, ⟨0, (twoPeers ourPeerId).fired.length⟩, rfl,
      rfl, rfl, rfl, rfl, rfl, rfl, rfl, rfl, rfl⟩, htask, hin, hopen⟩
  refine ⟨{ s₂ with ask := { s₂.ask with node } }, ?_, ?_, rfl, rfl, rfl, rfl, hgone, rfl,
    hnext.trans htwo, fun x hx => ?_⟩
  · rw [farGone, List.append_assoc, exec_append_of h₁, exec_append_of h₂]
    exact h₃
  · exact hasked₂.congr rfl rfl hfired₃ (congrFun htasks 0) hinbound hclosed
  · have hx' : x ∈ node.removed := hx
    rw [hremoved₃, hnil, List.nil_append, List.mem_singleton] at hx'
    rw [hx']

theorem exec_leftOpen (ourPeerId : PeerID) :
    ∃ s, exec (LookupState.step valuesCodec) (.init ourPeerId lookedUpKey) leftOpen = some s ∧
      ¬ s.Temporary := by
  obtain ⟨s, hrun, h⟩ := exec_farGone ourPeerId
  have hgone : s.ask.node.pool.connections[(farPeer, "local-2").1]? = none := h.gone
  obtain ⟨ask, hopened, hnode, hlisteners, hrequests⟩ :=
    LookupState.exec_opened (i := 1) (r := 1) valuesCodec "remote-1" (by rw [h.lookups]; rfl)
      h.unasked hgone
  obtain ⟨htasks, hinbound, hclosed, hfired, hremoved⟩ :=
    NodeState.insertPeer_frame valuesCodec "remote-1" hgone
  rw [← hnode] at htasks hinbound hclosed hfired hremoved
  have hasked : NearAsked ask := h.asked.congr (hrequests 0 zero_ne_one) hlisteners hfired
    (htasks 0 (by rw [h.next]; decide)) hinbound hclosed
  -- the near one answers while the connection to the far one is there
  obtain ⟨s', hrun', hstatus, hopened', hremoved'⟩ := exec_nearAnswers
    (s := ({ s with ask, opened := s.opened ++ [(farPeer, s.ask.node.next)] } :
      LookupState).setStage 1 (farPeer, "local-2") (.requesting 1 (some s.ask.node.next)))
    (LookupState.at_setStage.mpr (Or.inr ⟨one_ne_zero, by rw [LookupState.At, h.lookups]; rfl⟩)) hasked
  refine ⟨s', ?_, fun htemporary => ?_⟩
  · rw [leftOpen, List.append_assoc, exec_append_of hrun, exec_append_of hopened]
    exact hrun'
  · obtain ⟨x, hx, hstream⟩ := htemporary _ hstatus farPeer 2 (by
      rw [hopened', ← h.next]
      exact List.mem_append_right _ (List.mem_singleton_self _))
    rw [hremoved'] at hx
    have hx' : x ∈ ask.node.removed := hx
    rw [hremoved] at hx'
    rw [h.removed x hx'] at hstream
    cases hstream

/-- **A connection that is left open**: a lookup that has to connect is dropped with the
first values. -/
theorem lookup_connection_is_left_open :
    ∃ s, exec (LookupState.step valuesCodec) (.init ⟨realSha256 []⟩ lookedUpKey) leftOpen = some s ∧
      ¬ s.Temporary :=
  exec_leftOpen ⟨realSha256 []⟩

/-- The far peer was asked when the near one answered. -/
theorem lookup_connections_are_temporary_iff_leftOpen :
    ¬ Meets (LookupState.step valuesCodec) (LookupState.NothingOpen valuesCodec)
      (.init ⟨realSha256 []⟩ lookedUpKey) leftOpen := by
  obtain ⟨s, hrun, hbad⟩ := exec_leftOpen ⟨realSha256 []⟩
  rw [← lookup_connections_are_temporary_iff _ _ _ _ hrun]
  intro hall
  exact hbad (hall.last hrun)

end Tewta
