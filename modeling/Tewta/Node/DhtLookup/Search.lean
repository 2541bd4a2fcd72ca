import Tewta.Node.DhtLookup.Temporary

/-!
# Lookups and their loop

The node that runs `dht_lookup` among everything else does what the loop alone does with
the results of its lookups: `search` forgets how far each lookup has got, and `searchLabels`
is what a step of the node means to the loop, nothing or the result of the lookup that it
completes.  So what is said about the loop for all results holds of the results that the
peers bring about (`exists_searchRun`).
-/

namespace Tewta

open Transition DhtSearch
open Relation (ReflTransGen)

namespace DhtSearch

variable {α β : Type}

/-- The loop with its lookups seen in another way. -/
def map (f : α → β) (s : DhtSearch α) : DhtSearch β where
  key := s.key
  providers := s.providers
  alreadyQueried := s.alreadyQueried
  lookups := s.lookups.map f
  shouldComplete := s.shouldComplete
  status := s.status

variable {f : α → β} {start : PeerID × String → α} {start' : PeerID × String → β}

theorem map_fillWith (hf : ∀ p, f (start p) = start' p) (n : ℕ) (s : DhtSearch α) :
    (fillWith start n s).map f = fillWith start' n (s.map f) := by
  induction n generalizing s with
  | zero => rfl
  | succ n ih =>
    rw [fillWith, fillWith]
    by_cases hcomplete : s.shouldComplete = true
    · rw [if_pos hcomplete, if_pos (show (s.map f).shouldComplete = true from hcomplete)]
    · rw [if_neg hcomplete, if_neg (show ¬ (s.map f).shouldComplete = true from hcomplete)]
      have hproviders : (s.map f).providers = s.providers := rfl
      rw [hproviders]
      cases s.providers.getLast? with
      | none =>
        have hempty : (s.map f).lookups.isEmpty = s.lookups.isEmpty := by simp [map]
        simp only [hempty]
        split <;> rfl
      | some provider =>
        refine (ih _).trans (congrArg (fillWith start' n) ?_)
        have hlookups : (s.lookups ++ [start provider]).map f =
            s.lookups.map f ++ [start' provider] := by
          rw [List.map_append, List.map_singleton, hf]
        rw [map, hlookups]
        rfl

theorem map_fill (hf : ∀ p, f (start p) = start' p) (s : DhtSearch α) :
    (s.fill start).map f = (s.map f).fill start' := by
  have hlen : (s.map f).lookups.length = s.lookups.length := by simp [map]
  unfold fill
  rw [hlen, ← map_fillWith hf]
  generalize fillWith start (kademliaAlpha - s.lookups.length) s = t
  have hcond : ((t.map f).lookups.isEmpty && (t.map f).shouldComplete) =
      (t.lookups.isEmpty && t.shouldComplete) := by simp [map]
  simp only [hcond]
  by_cases h : (t.lookups.isEmpty && t.shouldComplete) = true
  · rw [if_pos h, if_pos h]
    rfl
  · rw [if_neg h, if_neg h]

end DhtSearch

namespace LookupState

variable {codec : Codec Bytes} {s s' : LookupState}

/-- The loop of a node that runs `dht_lookup`. -/
def search (s : LookupState) : DhtSearch (PeerID × String) :=
  s.toDhtSearch.map SingleLookup.provider

theorem search_fill (s : LookupState) : s.fill.search = s.search.fill id :=
  map_fill (fun _ => rfl) s.toDhtSearch

theorem search_setStage {i : ℕ} {provider : PeerID × String} {stage stage' : LookupStage}
    (hi : s.lookups[i]? = some ⟨provider, stage⟩) :
    (s.setStage i provider stage').search = s.search := by
  have hset : (s.lookups.set i ⟨provider, stage'⟩).map SingleLookup.provider =
      s.lookups.map SingleLookup.provider := by
    refine List.ext_getElem? fun j => ?_
    rw [List.map_set, List.getElem?_set, List.length_map, List.getElem?_map]
    by_cases hij : i = j
    · subst hij
      rw [if_pos rfl, if_pos (List.getElem?_eq_some_iff.mp hi).1, hi]
      rfl
    · rw [if_neg hij]
  simp [search, DhtSearch.map, setStage, hset]

/-- Where lookups are under way the loop is running. -/
def Working (s : LookupState) : Prop := s.lookups ≠ [] → s.status = .running

theorem working_fill (hs : s.status = .running) : s.fill.Working := by
  intro hne
  obtain ⟨new, -, hstatus | ⟨-, hnil⟩⟩ := fill_spec s
  · rw [hstatus, hs]
  · exact absurd hnil hne

theorem Working.setStage (h : s.Working) (i : ℕ) (provider : PeerID × String)
    (stage : LookupStage) : (s.setStage i provider stage).Working := by
  intro hne
  refine h fun hnil => hne ?_
  show s.lookups.set i _ = []
  rw [hnil]
  rfl

theorem Working.running (h : s.Working) {i : ℕ} {lookup : SingleLookup}
    (hi : s.lookups[i]? = some lookup) : s.status = .running := by
  refine h fun hnil => ?_
  rw [hnil] at hi
  cases hi

/-- What a step of the node means to the loop: it begins, or the lookup that the step
completes has come to its result. -/
def searchLabels (codec : Codec Bytes) (s : LookupState) : LookupLabel → List SearchLabel
  | .begin => [.begin s.ask.node.pool]
  | .connect i false => [.complete i (.error .failedToConnect)]
  | .handshake i _ (.error e) => [.complete i (.error (.handshakeError e))]
  | .handshake i _ (.ok _) =>
    match s.lookups[i]? with
    | some lookup =>
      if s.ask.node.pool.contains lookup.provider.1 then
        [.complete i (.error (.handshakeError .alreadyConnected))]
      else []
    | none => []
  | .request i writes =>
    match s.lookups[i]? with
    | some ⟨provider, .requesting r own⟩ =>
      match s.ask.step codec (.run r writes) with
      | some ask => (result ask ⟨provider, .requesting r own⟩).toList.map (.complete i)
      | none => []
    | _ => []
  | _ => []

/-- The loop goes the same way with labels of its own. -/
def Follows (ls : List SearchLabel) (s s' : LookupState) : Prop :=
  ∀ r : SearchRun, r.search = s.search →
    ∃ r', exec SearchRun.step r ls = some r' ∧ r'.search = s'.search

theorem follows_of_search_eq (h : s'.search = s.search) : Follows [] s s' :=
  fun r hr => ⟨r, rfl, hr.trans h.symm⟩

theorem Follows.of_search_eq {ls : List SearchLabel} {s t s' : LookupState}
    (h : Follows ls t s') (heq : t.search = s.search) : Follows ls s s' := by
  unfold Follows
  rw [← heq]
  exact h

theorem exec_complete {r : SearchRun} (hr : r.search = s.search) (hs : s.status = .running)
    {i : ℕ} {lookup : SingleLookup} (hi : s.lookups[i]? = some lookup)
    (res : Except SingleProviderLookupError DhtLookupResult) :
    exec SearchRun.step r [.complete i res] = some
      ⟨(s.search.resume i res).goOn id, r.learnt ++ suggestions res,
        r.answered ++ [(lookup.provider, res)]⟩ := by
  have hi' : s.search.lookups[i]? = some lookup.provider := by
    show (s.lookups.map _)[i]? = _
    rw [List.getElem?_map, hi]
    rfl
  rw [exec_singleton, SearchRun.step, SearchRun.enter, hr, hi',
    show s.search.status = .running from hs]
  rfl

theorem search_eraseIdx (s : LookupState) (i : ℕ) (providers : List (PeerID × String)) :
    ({ s with lookups := s.lookups.eraseIdx i, providers := providers } : LookupState).search =
      { s.search with lookups := s.search.lookups.eraseIdx i, providers := providers } := by
  have hlookups : (s.lookups.eraseIdx i).map SingleLookup.provider =
      (s.lookups.map SingleLookup.provider).eraseIdx i := (List.eraseIdx_map ..).symm
  unfold search DhtSearch.map
  rw [hlookups]

theorem goOn_of_running {α : Type} {s : PeerID × String → α} {d : DhtSearch α}
    (hd : d.status = .running) : d.goOn s = d.fill s := by
  rw [goOn, hd]

/-- A step of the node is kept by the loop if the loop follows it, unless a lookup panics. -/
def Kept (ls : List SearchLabel) (s s' : LookupState) : Prop :=
  s'.Working ∧ (s'.status = .panicked ∨ Follows ls s s')

theorem Kept.of_search_eq {ls : List SearchLabel} {s t s' : LookupState} (h : Kept ls t s')
    (heq : t.search = s.search) : Kept ls s s' :=
  ⟨h.1, h.2.imp_right (·.of_search_eq heq)⟩

/-- **A lookup that has run a section** is settled as the loop has it. -/
theorem kept_settle (hs : s.status = .running) {i : ℕ} {lookup : SingleLookup}
    (hi : s.lookups[i]? = some lookup) :
    Kept ((result s.ask lookup).toList.map (.complete i)) s (s.settle codec i) := by
  simp only [settle, hi]
  split
  · exact ⟨fun hne => absurd rfl hne, Or.inl rfl⟩
  · split
    · rename_i values hres
      rw [hres]
      exact ⟨fun hne => absurd rfl hne, Or.inr fun r hr => ⟨_, exec_complete hr hs hi _, rfl⟩⟩
    · rename_i peers hres
      rw [hres]
      refine ⟨working_fill hs, Or.inr fun r hr => ⟨_, exec_complete hr hs hi _, ?_⟩⟩
      have hgo := goOn_of_running (s := id)
        (show (s.search.resume i (.ok (.notFound peers))).status = .running from hs)
      rw [hgo, search_fill, search_eraseIdx]
      rfl
    · rename_i e hres
      rw [hres]
      refine ⟨working_fill hs, Or.inr fun r hr => ⟨_, exec_complete hr hs hi _, ?_⟩⟩
      have hgo := goOn_of_running (s := id)
        (show (s.search.resume i (.error e)).status = .running from hs)
      rw [hgo, search_fill, search_eraseIdx]
      rfl
    · rename_i hres
      rw [hres]
      exact ⟨fun _ => hs, Or.inr (follows_of_search_eq rfl)⟩

theorem kept_fail (hs : s.status = .running) {i : ℕ} {provider : PeerID × String}
    {stage : LookupStage} (hi : s.lookups[i]? = some ⟨provider, stage⟩)
    (e : SingleProviderLookupError) :
    Kept [.complete i (.error e)] s
      ((s.setStage i provider (.failed e)).settle codec i) := by
  have hset : (s.setStage i provider (.failed e)).lookups[i]? = some ⟨provider, .failed e⟩ := by
    show (s.lookups.set i _)[i]? = _
    rw [List.getElem?_set_self (List.getElem?_eq_some_iff.mp hi).1]
  exact (kept_settle (s := s.setStage i provider (.failed e)) hs hset).of_search_eq
    (search_setStage hi)

theorem follows_begin (hs : s.status = .notStarted) :
    Follows [.begin s.ask.node.pool] s
      (fill { s with toDhtSearch := s.begin s.ask.node.pool }) := by
  intro r hr
  refine ⟨⟨(s.search.begin s.ask.node.pool).goOn id, s.ask.node.pool.peersWithAddrs, r.answered⟩,
    ?_, ?_⟩
  · rw [exec_singleton, SearchRun.step, SearchRun.enter, hr,
      show s.search.status = .notStarted from hs]
    rfl
  · rw [search_fill]
    rfl

theorem Working.kept (hw : s.Working) {i : ℕ} {provider : PeerID × String}
    {stage : LookupStage} (hi : s.lookups[i]? = some ⟨provider, stage⟩) (stage' : LookupStage) :
    Kept [] s (s.setStage i provider stage') :=
  ⟨hw.setStage _ _ _, Or.inr (follows_of_search_eq (search_setStage hi))⟩

/-- **A step of the node** is what it means to the loop, unless a lookup panics. -/
theorem kept_step {l : LookupLabel} (hw : s.Working) (h : s.step codec l = some s') :
    Kept (s.searchLabels codec l) s s' := by
  cases l with
  | other l =>
    rw [step] at h
    split at h
    · cases h
    · obtain ⟨ask, -, rfl⟩ := Option.map_eq_some_iff.mp h
      exact ⟨hw, Or.inr (follows_of_search_eq rfl)⟩
  | begin =>
    rw [step] at h
    split at h
    · rename_i hs
      cases h
      exact ⟨working_fill rfl, Or.inr (follows_begin hs)⟩
    · cases h
  | contains i r =>
    rw [step] at h
    split at h
    · rename_i provider hi
      split at h
      · obtain ⟨ask, -, rfl⟩ := Option.map_eq_some_iff.mp h
        exact (Working.kept (s := { s with ask }) hw hi _).of_search_eq rfl
      · cases h
        exact hw.kept hi _
    · cases h
  | connect i connects =>
    rw [step] at h
    split at h
    · rename_i provider hi
      cases connects with
      | true =>
        cases h
        exact hw.kept hi _
      | false =>
        cases h
        exact kept_fail (hw.running hi) hi _
    · cases h
  | handshake i r result =>
    rw [step] at h
    split at h
    · rename_i provider hi
      cases result with
      | error e =>
        cases h
        exact kept_fail (hw.running hi) hi _
      | ok addr =>
        obtain ⟨ask, -, h⟩ := Option.bind_eq_some_iff.mp h
        simp only [searchLabels, hi]
        split at h
        · rename_i hcontains
          cases h
          rw [if_pos hcontains]
          exact (kept_fail (s := { s with ask }) (hw.running hi) hi _).of_search_eq rfl
        · rename_i hcontains
          obtain ⟨ask', -, rfl⟩ := Option.map_eq_some_iff.mp h
          rw [if_neg hcontains]
          exact (Working.kept (s := { s with
            ask := ask', opened := s.opened ++ [(provider.1, s.ask.node.next)] }) hw hi
              _).of_search_eq rfl
    · cases h
  | request i writes =>
    rw [step] at h
    split at h
    · rename_i provider r own hi
      obtain ⟨ask, hask, rfl⟩ := Option.map_eq_some_iff.mp h
      simp only [searchLabels, hi, hask]
      exact (kept_settle (s := { s with ask }) (hw.running hi) hi).of_search_eq rfl
    · cases h

/-! ### Runs -/

theorem Follows.panicked {ls : List SearchLabel} (h : Follows ls s s')
    (hs : s.status = .panicked) : s'.status = .panicked := by
  obtain ⟨r', hr', hsearch⟩ := h ⟨s.search, [], []⟩ rfl
  have hstatus : s.search.status = .panicked := hs
  cases ls with
  | nil =>
    cases hr'
    exact (congrArg DhtSearch.status hsearch).symm.trans hs
  | cons l ls =>
    obtain ⟨u, hu, -⟩ := exec_cons_eq_some.mp hr'
    have hnone : (⟨s.search, [], []⟩ : SearchRun).enter l = none := by
      cases l with
      | begin pool => simp only [SearchRun.enter, hstatus]
      | complete i result => simp only [SearchRun.enter, hstatus]
    rw [SearchRun.step, hnone] at hu
    cases hu

/-- The loop has gone through a run and stands where the node is, unless a lookup has panicked. -/
def Tracked (key : KeyID) (ls : List SearchLabel) (s : LookupState) : Prop :=
  s.Working ∧ (s.status = .panicked ∨
    ∃ r, exec SearchRun.step (.init key) ls = some r ∧ r.search = s.search)

theorem Tracked.step {key : KeyID} {ls : List SearchLabel} {l : LookupLabel}
    (inv : Tracked key ls s) (h : s.step codec l = some s') :
    Tracked key (ls ++ s.searchLabels codec l) s' := by
  obtain ⟨hw, hs⟩ := inv
  obtain ⟨hw', hs'⟩ := kept_step hw h
  refine ⟨hw', ?_⟩
  rcases hs' with hs' | hfollows
  · exact Or.inl hs'
  rcases hs with hs | ⟨r, hr, hsearch⟩
  · exact Or.inl (hfollows.panicked hs)
  · obtain ⟨r', hr', hsearch'⟩ := hfollows r hsearch
    exact Or.inr ⟨r', (exec_append_of hr).trans hr', hsearch'⟩

/-- **In every run of the node** the results that its lookups come to, in the order in which
they complete, take the loop of `dht_lookup` to where the node is, unless one of the lookups
has panicked. -/
theorem exists_searchRun {ourPeerId : PeerID} {key : KeyID} {labels : List LookupLabel}
    (h : exec (step codec) (init ourPeerId key) labels = some s) : s.status = .panicked ∨
      ∃ r, exec SearchRun.step (.init key)
        (outputs (step codec) (searchLabels codec) (init ourPeerId key) labels) = some r ∧
          r.search = s.search :=
  (invariant_of_outputs (I := Tracked key) (fun _ _ _ _ inv hstep => inv.step hstep) [] h
    ⟨fun hne => absurd rfl hne, Or.inr ⟨_, rfl, rfl⟩⟩).2

/-- The far peer is gone and can not be reached, and the near one answers. -/
theorem exec_unreachable {s : LookupState} (h : FarGone s) :
    ∃ s', exec (step valuesCodec) s
        ([.contains 1 1, .connect 1 false] ++ nearAnswers) = some s' ∧
      s'.status = .returned (some []) := by
  have hcontains : s.ask.node.pool.contains farPeer = false := by
    rw [ConnectionPool.contains_eq_isSome, h.gone]
    rfl
  have hfail : exec (step valuesCodec) s [.contains 1 1, .connect 1 false] = some { s with
      lookups := [⟨(nearPeer, "local-1"), .requesting 0 none⟩] } := by
    simp [exec_cons, step, h.lookups, hcontains, setStage, settle, hasPanicked, result, fill,
      DhtSearch.fill, DhtSearch.fillWith, kademliaAlpha, h.providers, h.shouldComplete]
  obtain ⟨s', hrun, hstatus, -, -⟩ := exec_nearAnswers
    (s := { s with lookups := [⟨(nearPeer, "local-1"), .requesting 0 none⟩] }) rfl h.asked
  exact ⟨s', (exec_append_of hfail).trans hrun, hstatus⟩

/-- A lookup of which one provider is not reached, and the other has values. -/
theorem exists_searchRun_unreachable :
    ∃ s r, exec (step valuesCodec) (init ⟨realSha256 []⟩ lookedUpKey)
        (farGone ++ ([.contains 1 1, .connect 1 false] ++ nearAnswers)) = some s ∧
      exec SearchRun.step (.init lookedUpKey) (outputs (step valuesCodec)
        (searchLabels valuesCodec) (init ⟨realSha256 []⟩ lookedUpKey)
          (farGone ++ ([.contains 1 1, .connect 1 false] ++ nearAnswers))) = some r ∧
      r.search.status = .returned (some []) := by
  obtain ⟨s, hgone, h⟩ := exec_farGone ⟨realSha256 []⟩
  obtain ⟨s', hrun, hstatus⟩ := exec_unreachable h
  have hexec := (exec_append_of hgone).trans hrun
  rcases exists_searchRun hexec with hpanicked | ⟨r, hr, hsearch⟩
  · rw [hstatus] at hpanicked
    cases hpanicked
  · refine ⟨s', r, hexec, hr, ?_⟩
    rw [hsearch]
    exact hstatus

end LookupState

end Tewta
