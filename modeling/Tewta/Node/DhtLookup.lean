import Tewta.Node.DhtSearch
import Tewta.Node.Requests

/-!
# A lookup on many providers

`dht_lookup` asks the nearest provider it knows, three at a time, until one has values.
Each of its single-provider lookups asks on the connection there is, or opens one of its
own and closes it when it has the answer.  Whatever the node does besides is a label, and
so are the outcomes of connecting and of the handshake; the request and its response are
those of the module on requests.

A future that is ready is taken by `select_all` in the same poll, so `settle` is part of
the section that makes it ready.
-/

namespace Tewta

open Broadcast NodeState Transition

/-- Where a lookup on a single provider stands: before `contains`, before the stream is
connected, in the handshake, or with a request, on a stream of its own or another's. -/
inductive LookupStage
  | checking
  | connecting
  | handshaking
  | requesting (r : ℕ) (own : Option StreamId)
  | failed (e : SingleProviderLookupError)

/-- The request of a lookup. -/
def LookupStage.request? : LookupStage → Option ℕ
  | .requesting r _ => some r
  | _ => none

structure SingleLookup where
  provider : PeerID × String
  stage : LookupStage

/-- A node that runs `dht_lookup`.  `opened` has the connections that its lookups have
inserted. -/
structure LookupState extends DhtSearch SingleLookup where
  ask : AskState
  opened : List (PeerID × StreamId)

inductive LookupLabel
  /-- anything else the node does -/
  | other (l : AskLabel)
  /-- `dht_lookup` is called -/
  | begin
  /-- a lookup asks the pool for its provider -/
  | contains (i r : ℕ)
  /-- a lookup has connected, or has not -/
  | connect (i : ℕ) (connects : Bool)
  /-- the handshake of a lookup is over, with the address of the Ehlo -/
  | handshake (i r : ℕ) (result : Except HandshakeError String)
  /-- the request of a lookup runs its next section -/
  | request (i : ℕ) (writes : Bool)

/-- The request that a label is about. -/
def AskLabel.request? : AskLabel → Option ℕ
  | .run r _ => some r
  | .timeout r => some r
  | .drop r => some r
  | _ => none

namespace LookupState

def init (ourPeerId : PeerID) (key : KeyID) : LookupState where
  toDhtSearch := .init key
  ask := AskState.init ourPeerId
  opened := []

/-- The loop up to the wait. -/
def fill (s : LookupState) : LookupState :=
  { s with toDhtSearch := s.toDhtSearch.fill fun provider => ⟨provider, .checking⟩ }

/-- What a lookup has come to, once it is over. -/
def result (ask : AskState) (lookup : SingleLookup) :
    Option (Except SingleProviderLookupError DhtLookupResult) :=
  match lookup.stage with
  | .requesting r own =>
    match ask.requests r with
    | some req =>
      match req.phase with
      | .ended (some event) =>
        match event.packet with
        | .findDhtValueResp p =>
          if own.isSome ∧ p.requestId ≠ req.id then some (.error .requestIdMismatch)
          else some (.ok p.result)
        | _ => none
      | _ => none
    | none => none
  | .failed e => some (.error e)
  | _ => none

/-- Has the request of a lookup panicked? -/
def hasPanicked (ask : AskState) (lookup : SingleLookup) : Bool :=
  match lookup.stage with
  | .requesting r _ =>
    match ask.requests r with
    | some req =>
      match req.phase with
      | .panicked => true
      | _ => false
    | none => false
  | _ => false

section Step

variable (codec : Codec Bytes)

/-- A lookup is dropped. -/
def dropLookup (ask : AskState) (lookup : SingleLookup) : AskState :=
  match lookup.stage with
  | .requesting r _ => (ask.step codec (.drop r)).getD ask
  | _ => ask

/-- `dht_lookup` is over, and what is left of its lookups is dropped. -/
def finish (s : LookupState) (rest : List SingleLookup) (status : LookupStatus) : LookupState :=
  { s with ask := rest.foldl (dropLookup codec) s.ask, lookups := [], status := status }

/-- A lookup has run a section: if it is over, `select_all` returns. -/
def settle (s : LookupState) (i : ℕ) : LookupState :=
  match s.lookups[i]? with
  | some lookup =>
    if hasPanicked s.ask lookup then s.finish codec (s.lookups.eraseIdx i) .panicked
    else
      match result s.ask lookup with
      | some (.ok (.found values)) =>
        s.finish codec (s.lookups.eraseIdx i) (.returned (some values))
      | some (.ok (.notFound peers)) =>
        fill { s with lookups := s.lookups.eraseIdx i, providers := s.moreProviders peers }
      | some (.error _) => fill { s with lookups := s.lookups.eraseIdx i }
      | none => s
  | none => s

def setStage (s : LookupState) (i : ℕ) (provider : PeerID × String) (stage : LookupStage) :
    LookupState :=
  { s with lookups := s.lookups.set i ⟨provider, stage⟩ }

/-- Is a request that of one of the lookups? -/
def owns (s : LookupState) (r : Option ℕ) : Bool :=
  r.isSome && s.lookups.any fun lookup => lookup.stage.request? = r

/-- One step of a node that runs `dht_lookup`. -/
def step (s : LookupState) : LookupLabel → Option LookupState
  | .other l =>
    if s.owns l.request? then none else (s.ask.step codec l).map fun ask => { s with ask }
  | .begin =>
    match s.status with
    | .notStarted =>
      some (fill { s with toDhtSearch := s.begin s.ask.node.pool })
    | _ => none
  | .contains i r =>
    match s.lookups[i]? with
    | some ⟨provider, .checking⟩ =>
      if s.ask.node.pool.contains provider.1 then
        (s.ask.step codec (.ask r (.findDhtValue s.key) provider.1 false)).map fun ask =>
          { s with ask }.setStage i provider (.requesting r none)
      else some (s.setStage i provider .connecting)
    | _ => none
  | .connect i connects =>
    match s.lookups[i]? with
    | some ⟨provider, .connecting⟩ =>
      if connects then some (s.setStage i provider .handshaking)
      else some ((s.setStage i provider (.failed .failedToConnect)).settle codec i)
    | _ => none
  | .handshake i r result =>
    match s.lookups[i]? with
    | some ⟨provider, .handshaking⟩ =>
      match result with
      | .error e => some ((s.setStage i provider (.failed (.handshakeError e))).settle codec i)
      | .ok addr =>
        (s.ask.step codec (.node (.insert provider.1 addr))).bind fun ask =>
          if s.ask.node.pool.contains provider.1 then
            some (({ s with ask }.setStage i provider
              (.failed (.handshakeError .alreadyConnected))).settle codec i)
          else
            (ask.step codec (.ask r (.findDhtValue s.key) provider.1 true)).map fun ask =>
              { s with
                ask, opened := s.opened ++ [(provider.1, s.ask.node.next)] }.setStage i provider
                  (.requesting r (some s.ask.node.next))
    | _ => none
  | .request i writes =>
    match s.lookups[i]? with
    | some ⟨_, .requesting r _⟩ =>
      (s.ask.step codec (.run r writes)).map fun ask => { s with ask }.settle codec i
    | _ => none

end Step

/-! ### The loop -/

theorem fill_spec (s : LookupState) : ∃ new : List (PeerID × String),
    s.fill.lookups = s.lookups ++ new.map (⟨·, .checking⟩) ∧
      (s.fill.status = s.status ∨ s.fill.status = .returned none ∧ s.fill.lookups = []) := by
  obtain ⟨t, htakes, hcase⟩ := DhtSearch.fill_cases (⟨·, .checking⟩) s.toDhtSearch
  obtain ⟨new, hnew, hstatus⟩ := DhtSearch.lookups_of_takes htakes
  rcases hcase with ⟨heq, -⟩ | ⟨heq, hnil, -⟩
  · refine ⟨new, ?_, Or.inl ?_⟩
    · rw [fill, heq, hnew]
    · rw [fill, heq, hstatus]
  · refine ⟨new, ?_, Or.inr ⟨?_, ?_⟩⟩
    · rw [fill, heq, ← hnew]
    · rw [fill, heq]
    · rw [fill, heq, ← hnil]

/-! ### Lookups with a request -/

/-- The lookup at a place has a request. -/
def At (s : LookupState) (i : ℕ) (provider : PeerID × String) (r : ℕ)
    (own : Option StreamId) : Prop :=
  s.lookups[i]? = some ⟨provider, .requesting r own⟩

theorem at_setStage {s : LookupState} {i j r : ℕ} {provider provider' : PeerID × String}
    {stage : LookupStage} {own : Option StreamId} :
    (s.setStage i provider stage).At j provider' r own ↔
      (i = j ∧ i < s.lookups.length ∧ provider = provider' ∧ stage = .requesting r own) ∨
        (i ≠ j ∧ s.At j provider' r own) := by
  show (s.lookups.set i _)[j]? = _ ↔ _
  rw [List.getElem?_set]
  by_cases hij : i = j
  · rw [if_pos hij]
    subst hij
    by_cases hlt : i < s.lookups.length
    · rw [if_pos hlt]
      simp [hlt]
    · rw [if_neg hlt]
      simp [hlt]
  · rw [if_neg hij]
    simp [hij, At]

/-! ### A lookup that is over -/

variable {codec : Codec Bytes} {s : LookupState}

theorem result_cases {ask : AskState} {lookup : SingleLookup}
    {res : Except SingleProviderLookupError DhtLookupResult}
    (h : result ask lookup = some res) :
    (∃ e, lookup.stage = .failed e ∧ res = .error e) ∨
      ∃ r own req answer, lookup.stage = .requesting r own ∧ ask.requests r = some req ∧
        req.phase = .ended (some answer) := by
  rw [result] at h
  split at h
  · rename_i r own hstage
    split at h
    · rename_i req hr
      split at h
      · rename_i answer hphase
        exact Or.inr ⟨r, own, req, answer, hstage, hr, hphase⟩
      · cases h
    · cases h
  · rename_i e hstage
    cases h
    exact Or.inl ⟨e, hstage, rfl⟩
  · cases h

theorem settle_of_found {i : ℕ} {lookup : SingleLookup} {values : List DhtValue}
    (hi : s.lookups[i]? = some lookup)
    (hres : result s.ask lookup = some (.ok (.found values))) :
    s.settle codec i = s.finish codec (s.lookups.eraseIdx i) (.returned (some values)) := by
  have hpanicked : hasPanicked s.ask lookup = false := by
    rcases result_cases hres with ⟨e, hstage, -⟩ | ⟨r, own, req, answer, hstage, hr, hphase⟩
    · simp only [hasPanicked, hstage]
    · simp only [hasPanicked, hstage, hr, hphase]
  simp only [settle, hi, hpanicked, Bool.false_eq_true, if_false, hres]

theorem node_dropLookup (ask : AskState) (lookup : SingleLookup) :
    (dropLookup codec ask lookup).node = ask.node := by
  rw [dropLookup]
  split
  · rename_i r own _
    cases h : ask.step codec (.drop r) with
    | none => rfl
    | some ask' =>
      show ask'.node = _
      cases AskState.step_cases h with
      | fail => rw [AskState.node_setPhase]
  · rfl

/-- The connections of the lookups that are dropped stay where they are. -/
@[simp] theorem node_finish (s : LookupState) (rest : List SingleLookup) (status : LookupStatus) :
    (s.finish codec rest status).ask.node = s.ask.node := by
  show (rest.foldl (dropLookup codec) s.ask).node = _
  generalize s.ask = ask
  induction rest generalizing ask with
  | nil => rfl
  | cons lookup rest ih => exact (ih _).trans (node_dropLookup ask lookup)

end LookupState

end Tewta
