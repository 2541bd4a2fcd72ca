import Mathlib.Data.Prod.Lex
import Tewta.Node.DhtSearch.Order

/-!
# How a lookup ends

The loop only waits while some lookup is under way, and it comes to an end: a response
that suggests peers either makes it take one that was not queried, of which there are
finitely many, or does not lengthen the list; what is taken shortens the list, and what
completes is one lookup less (`rank_lt_of_step`).

When it ends without values every lookup has completed, and either there was nobody left
to ask, or the pair of the key itself had been taken, after which nobody else is asked.
-/

namespace Tewta

open Transition DhtSearch
open Relation (ReflTransGen)

/-! ### Termination -/

namespace DhtSearch

variable {α : Type} {s t : DhtSearch α} {start : PeerID × String → α}

theorem lookups_fillWith_le (start : PeerID × String → α) (n : ℕ) (s : DhtSearch α) :
    (fillWith start n s).lookups.length ≤ s.lookups.length + n := by
  induction n generalizing s with
  | zero => exact le_rfl
  | succ n ih =>
    rw [fillWith]
    split
    · exact Nat.le_add_right _ _
    · split
      · refine (ih _).trans ?_
        rw [List.length_append, List.length_singleton]
        omega
      · split <;> exact Nat.le_add_right _ _

theorem lookups_fill_le (hs : s.lookups.length ≤ kademliaAlpha) :
    (s.fill start).lookups.length ≤ kademliaAlpha := by
  have hle := lookups_fillWith_le start (kademliaAlpha - s.lookups.length) s
  rw [fill]
  split <;> exact hle.trans (by omega)

theorem fill_of_take (hs : s.lookups.length < kademliaAlpha) (hcomplete : s.shouldComplete = false)
    {provider : PeerID × String} (hlast : s.providers.getLast? = some provider) :
    s.fill start = (s.take start provider).fill start := by
  obtain ⟨n, hn⟩ : ∃ n, kademliaAlpha - s.lookups.length = n + 1 :=
    ⟨kademliaAlpha - s.lookups.length - 1, by omega⟩
  have hn' : kademliaAlpha - (s.take start provider).lookups.length = n := by
    show kademliaAlpha - (s.lookups ++ [start provider]).length = n
    rw [List.length_append, List.length_singleton]
    omega
  have hfill : fillWith start (n + 1) s = fillWith start n (s.take start provider) := by
    rw [fillWith, if_neg (by rw [hcomplete]; simp), hlast]
    rfl
  rw [fill, fill, hn, hn', hfill]

/-- What is left: the pairs nobody has asked yet, the list, and the lookups under way. -/
def rank (U : Finset (PeerID × String)) (s : DhtSearch α) : ℕ ×ₗ ℕ ×ₗ ℕ :=
  toLex ((U \ s.alreadyQueried.toFinset).card,
    toLex (if s.shouldComplete then 0 else s.providers.length, s.lookups.length))

variable {U : Finset (PeerID × String)}

theorem rank_lt (hcard : (U \ t.alreadyQueried.toFinset).card ≤ (U \ s.alreadyQueried.toFinset).card)
    (h : (U \ t.alreadyQueried.toFinset).card < (U \ s.alreadyQueried.toFinset).card ∨
      (if t.shouldComplete then 0 else t.providers.length) <
        (if s.shouldComplete then 0 else s.providers.length) ∨
      (if t.shouldComplete then 0 else t.providers.length) ≤
          (if s.shouldComplete then 0 else s.providers.length) ∧
        t.lookups.length < s.lookups.length) : rank U t < rank U s := by
  rw [rank, rank, Prod.Lex.toLex_lt_toLex]
  rcases h with h | h
  · exact Or.inl h
  · rcases Nat.lt_or_eq_of_le hcard with hlt | heq
    · exact Or.inl hlt
    · refine Or.inr ⟨heq, Prod.Lex.toLex_lt_toLex.mpr ?_⟩
      rcases h with h | ⟨hle, h⟩
      · exact Or.inl h
      · rcases Nat.lt_or_eq_of_le hle with hlt | heq'
        · exact Or.inl hlt
        · exact Or.inr ⟨heq', h⟩

theorem card_take_le (provider : PeerID × String) :
    (U \ (s.take start provider).alreadyQueried.toFinset).card ≤
      (U \ s.alreadyQueried.toFinset).card := by
  refine Finset.card_le_card (Finset.sdiff_subset_sdiff le_rfl ?_)
  intro p hp
  rw [List.mem_toFinset] at hp ⊢
  exact List.mem_cons_of_mem _ hp

theorem card_take_lt {provider : PeerID × String} (hU : provider ∈ U)
    (hnew : provider ∉ s.alreadyQueried) :
    (U \ (s.take start provider).alreadyQueried.toFinset).card <
      (U \ s.alreadyQueried.toFinset).card := by
  refine Finset.card_lt_card (Finset.ssubset_iff_of_subset ?_ |>.mpr ⟨provider, ?_, ?_⟩)
  · refine Finset.sdiff_subset_sdiff le_rfl fun p hp => ?_
    rw [List.mem_toFinset] at hp ⊢
    exact List.mem_cons_of_mem _ hp
  · rw [Finset.mem_sdiff, List.mem_toFinset]
    exact ⟨hU, hnew⟩
  · rw [Finset.mem_sdiff, List.mem_toFinset]
    exact fun h => h.2 List.mem_cons_self

theorem rank_take_lt (hcomplete : s.shouldComplete = false) {provider : PeerID × String}
    (hlast : s.providers.getLast? = some provider) : rank U (s.take start provider) < rank U s := by
  refine rank_lt (card_take_le provider) (Or.inr (Or.inl ?_))
  have hpos : 0 < s.providers.length := List.length_pos_of_mem (List.mem_of_getLast? hlast)
  have hdrop : (s.take start provider).providers.length = s.providers.length - 1 :=
    List.length_dropLast
  rw [hcomplete, hdrop]
  split
  · exact hpos
  · show s.providers.length - 1 < s.providers.length
    omega

theorem rank_fill_le (s : DhtSearch α) : rank U (s.fill start) ≤ rank U s := by
  obtain ⟨t, htakes, hcase⟩ := fill_cases start s
  have hle : rank U t ≤ rank U s :=
    of_takes (P := fun t => rank U t ≤ rank U s)
      (fun _ _ hle hcomplete hlast => (rank_take_lt hcomplete hlast).le.trans hle) htakes le_rfl
  rcases hcase with ⟨heq, -⟩ | ⟨heq, -⟩
  · rw [heq]
    exact hle
  · rw [heq]
    exact hle

theorem rank_goOn_le (s : DhtSearch α) : rank U (s.goOn start) ≤ rank U s := by
  rw [goOn]
  split
  · exact rank_fill_le s
  · exact le_rfl

/-- **A completion** leaves less, if what it suggests is in the set. -/
theorem rank_resume_lt (hs : s.lookups.length ≤ kademliaAlpha) (hstatus : s.status = .running)
    (hproviders : ∀ p ∈ s.providers, p ∈ U) {i : ℕ} (hi : i < s.lookups.length)
    {result : Except SingleProviderLookupError DhtLookupResult}
    (hsuggested : ∀ p ∈ suggestions result, p ∈ U) :
    rank U ((s.resume i result).goOn start) < rank U s := by
  have herase : (s.lookups.eraseIdx i).length < s.lookups.length := by
    rw [List.length_eraseIdx_of_lt hi]
    omega
  match result with
  | .ok (.found values) =>
    refine (rank_goOn_le _).trans_lt (rank_lt le_rfl (Or.inr (Or.inr ⟨le_rfl, ?_⟩)))
    exact Nat.zero_lt_of_lt hi
  | .error e =>
    exact (rank_goOn_le _).trans_lt (rank_lt le_rfl (Or.inr (Or.inr ⟨le_rfl, herase⟩)))
  | .ok (.notFound peers) =>
    let u := s.resume i (.ok (.notFound peers))
    show rank U (u.goOn start) < rank U s
    by_cases hcomplete : s.shouldComplete = true
    · refine (rank_goOn_le _).trans_lt (rank_lt le_rfl (Or.inr (Or.inr ⟨?_, herase⟩)))
      rw [if_pos hcomplete]
      exact (if_pos hcomplete).le
    · rw [Bool.not_eq_true] at hcomplete
      cases hlast : u.providers.getLast? with
      | none =>
        refine (rank_goOn_le _).trans_lt (rank_lt le_rfl (Or.inr (Or.inr ⟨?_, herase⟩)))
        rw [List.getLast?_eq_none_iff.mp hlast, List.length_nil, ite_self]
        exact Nat.zero_le _
      | some provider =>
        -- the next one was not queried
        obtain ⟨hmem, hnew⟩ := mem_moreProviders.mp (List.mem_of_getLast? hlast)
        have hU : provider ∈ U := by
          rcases hmem with h | h
          · exact hproviders _ h
          · exact hsuggested _ h
        have hgoOn : u.goOn start = (u.take start provider).fill start := by
          have hrunning : u.status = .running := hstatus
          rw [goOn, hrunning]
          exact fill_of_take (s := u) (herase.trans_le hs) hcomplete hlast
        rw [hgoOn]
        exact (rank_fill_le _).trans_lt
          (rank_lt (card_take_le provider) (Or.inl (card_take_lt hU hnew)))

/-- **There is always somebody to wait for.** -/
theorem lookups_ne_nil_of_goOn (h : (s.goOn start).status = .running) :
    (s.goOn start).lookups ≠ [] := by
  rw [goOn] at h ⊢
  split at h
  · obtain ⟨t, htakes, ⟨heq, hne⟩ | ⟨heq, -⟩⟩ := fill_cases start s
    · simp only [*]
      exact hne
    · rw [heq] at h
      cases h
  · contradiction

end DhtSearch

namespace SearchRun

variable {key : KeyID} {s s' : SearchRun} {U : Finset (PeerID × String)}

/-- At most three lookups are under way, and the list is part of a set. -/
structure Bounded (U : Finset (PeerID × String)) (s : SearchRun) : Prop where
  lookups : s.search.lookups.length ≤ kademliaAlpha
  providers : ∀ p ∈ s.search.providers, p ∈ U

theorem bounded_goOn {u : DhtSearch (PeerID × String)} (hlookups : u.lookups.length ≤ kademliaAlpha)
    (hproviders : ∀ p ∈ u.providers, p ∈ U) :
    (u.goOn id).lookups.length ≤ kademliaAlpha ∧ ∀ p ∈ (u.goOn id).providers, p ∈ U := by
  rw [goOn]
  split
  · refine ⟨lookups_fill_le hlookups, ?_⟩
    obtain ⟨t, htakes, hcase⟩ := fill_cases id u
    have ht : ∀ p ∈ t.providers, p ∈ U :=
      of_takes (P := fun t => ∀ p ∈ t.providers, p ∈ U)
        (fun _ _ ht _ _ p hp => ht p (List.mem_of_mem_dropLast hp)) htakes hproviders
    rcases hcase with ⟨heq, -⟩ | ⟨heq, -⟩
    · rw [heq]
      exact ht
    · rw [heq]
      exact ht
  · exact ⟨hlookups, hproviders⟩

/-- **A completion makes what is left less**, and keeps the bounds. -/
theorem rank_lt_of_step (inv : Bounded U s) {i : ℕ}
    {result : Except SingleProviderLookupError DhtLookupResult}
    (hsuggested : ∀ p ∈ suggestions result, p ∈ U) (h : s.step (.complete i result) = some s') :
    rank U s'.search < rank U s.search ∧ Bounded U s' := by
  obtain ⟨s₀, henter, rfl⟩ := Option.map_eq_some_iff.mp h
  rw [enter] at henter
  split at henter
  · rename_i provider hstatus hi
    cases henter
    have hlt := (List.getElem?_eq_some_iff.mp hi).1
    refine ⟨rank_resume_lt inv.lookups hstatus inv.providers hlt hsuggested, ?_⟩
    have herase : (s.search.lookups.eraseIdx i).length ≤ kademliaAlpha := by
      rw [List.length_eraseIdx_of_lt hlt]
      exact (Nat.sub_le _ _).trans inv.lookups
    have hgoOn := bounded_goOn (U := U) (u := s.search.resume i result) ?_ ?_
    · exact ⟨hgoOn.1, hgoOn.2⟩
    · rcases result with e | values | peers
      · exact herase
      · exact Nat.zero_le _
      · exact herase
    · rcases result with e | values | peers
      · exact inv.providers
      · exact inv.providers
      · intro p hp
        rcases (mem_moreProviders.mp hp).1 with hp | hp
        · exact inv.providers p hp
        · exact hsuggested p hp
  · cases henter

/-- The first step begins, and no other one does. -/
theorem begin_or_complete {l : SearchLabel} (h : s.step l = some s') :
    (∃ pool, l = .begin pool ∧ s.search.status = .notStarted) ∨
      ∃ i result, l = .complete i result ∧ s.search.status = .running := by
  obtain ⟨s₀, henter, -⟩ := Option.map_eq_some_iff.mp h
  cases l with
  | begin pool =>
    rw [enter] at henter
    split at henter
    · rename_i hstatus
      exact Or.inl ⟨pool, rfl, hstatus⟩
    · cases henter
  | complete i result =>
    rw [enter] at henter
    split at henter
    · rename_i hstatus _
      exact Or.inr ⟨i, result, rfl, hstatus⟩
    · cases henter

theorem status_of_step {l : SearchLabel} (h : s.step l = some s') :
    s'.search.status ≠ .notStarted := by
  obtain ⟨s₀, henter, rfl⟩ := Option.map_eq_some_iff.mp h
  refine status_goOn ?_
  cases l with
  | begin pool =>
    rw [enter] at henter
    split at henter
    · cases henter
      rintro ⟨⟩
    · cases henter
  | complete i result =>
    rw [enter] at henter
    split at henter
    · rename_i hstatus _
      cases henter
      have hrunning : s.search.status ≠ .notStarted := by
        rw [hstatus]
        rintro ⟨⟩
      rcases result with e | values | peers
      · exact hrunning
      · rintro ⟨⟩
      · exact hrunning
    · cases henter

/-- **There is no endless run.** -/
theorem exists_stop (U : Finset (PeerID × String)) (run : ℕ → SearchRun)
    (labels : ℕ → SearchLabel) (h₀ : run 0 = .init key)
    (hU : ∀ n i result, labels n = .complete i result → ∀ p ∈ suggestions result, p ∈ U) :
    ∃ n, (run n).step (labels n) ≠ some (run (n + 1)) := by
  by_contra hall
  have hstep : ∀ n, (run n).step (labels n) = some (run (n + 1)) := by
    intro n
    by_contra hn
    exact hall ⟨n, hn⟩
  -- the first step begins
  obtain ⟨pool, hbegin, -⟩ | ⟨i, result, -, hrunning⟩ := begin_or_complete (hstep 0)
  · let V : Finset (PeerID × String) := U ∪ pool.peersWithAddrs.toFinset
    have hV : ∀ {p}, p ∈ U → p ∈ V := fun hp => Finset.mem_union_left _ hp
    have hstart : Bounded V (run 1) := by
      have h := hstep 0
      rw [hbegin, h₀] at h
      rw [← Option.some.inj h]
      let u : DhtSearch (PeerID × String) := (DhtSearch.init key).begin pool
      have hpool : ∀ p ∈ u.providers, p ∈ V := by
        intro p hp
        refine Finset.mem_union_right _ (List.mem_toFinset.mpr ?_)
        exact mem_sortByDistance.mp (List.mem_reverse.mp hp)
      have hgoOn := bounded_goOn (U := V) (u := u) (Nat.zero_le _) hpool
      exact ⟨hgoOn.1, hgoOn.2⟩
    have hcomplete : ∀ n, Bounded V (run (n + 1)) →
        rank V (run (n + 2)).search < rank V (run (n + 1)).search ∧ Bounded V (run (n + 2)) := by
      intro n inv
      obtain ⟨-, -, hnot⟩ | ⟨i, result, hl, -⟩ := begin_or_complete (hstep (n + 1))
      · exact absurd hnot (status_of_step (hstep n))
      · have h := hstep (n + 1)
        rw [hl] at h
        exact rank_lt_of_step inv (fun p hp => hV (hU (n + 1) i result hl p hp)) h
    have hbounded : ∀ n, Bounded V (run (n + 1)) := by
      intro n
      induction n with
      | zero => exact hstart
      | succ n ih => exact (hcomplete n ih).2
    refine not_strictAnti_of_wellFoundedLT (fun n => rank V (run (n + 1)).search) ?_
    exact strictAnti_nat_of_succ_lt fun n => (hcomplete n (hbounded n)).1
  · rw [h₀] at hrunning
    cases hrunning

theorem lookups_ne_nil {labels : List SearchLabel}
    (h : exec SearchRun.step (.init key) labels = some s) (hs : s.search.status = .running) :
    s.search.lookups ≠ [] := by
  refine invariant_of_exec (I := fun s => s.search.status = .running → s.search.lookups ≠ [])
    (fun s l s' _ hstep hs' => ?_) h (fun hs => by cases hs) hs
  obtain ⟨s₀, -, rfl⟩ := Option.map_eq_some_iff.mp hstep
  exact lookups_ne_nil_of_goOn hs'

end SearchRun

/-- **The loop ends.**  If all suggested pairs come from a finite set there is no endless
run, whatever the pool and the results are; and as long as `dht_lookup` has not returned,
`select_all` has a lookup to wait for, and any of them may complete with any result. -/
theorem dht_lookup_terminates (key : KeyID) (U : Finset (PeerID × String)) :
    (∀ (run : ℕ → SearchRun) (labels : ℕ → SearchLabel), run 0 = .init key →
      (∀ n i result, labels n = .complete i result → ∀ p ∈ suggestions result, p ∈ U) →
      ∃ n, (run n).step (labels n) ≠ some (run (n + 1))) ∧
    ∀ labels s, exec SearchRun.step (.init key) labels = some s → s.search.status = .running →
      s.search.lookups ≠ [] ∧ ∀ i < s.search.lookups.length, ∀ result,
        (s.step (.complete i result)).isSome := by
  refine ⟨fun run labels => SearchRun.exists_stop U run labels, fun labels s h hs => ?_⟩
  refine ⟨SearchRun.lookups_ne_nil h hs, fun i hi result => ?_⟩
  rw [SearchRun.step, Option.isSome_map, SearchRun.enter, hs, List.getElem?_eq_getElem hi]
  rfl

/-! ### Giving up -/

/-- Nobody has answered with values.  Who was queried is under way or has answered, and
if the loop is to stop the pair of the key was queried. -/
structure Accounted (key : KeyID) (s : SearchRun) : Prop where
  best : BestFirst key s.learnt s.search
  queried : ∀ p ∈ s.search.alreadyQueried, p ∈ s.search.lookups ∨ ∃ result, (p, result) ∈ s.answered
  listed : ∀ p ∈ s.search.providers, p ∈ s.learnt
  complete : s.search.shouldComplete = true → s.search.status ≠ .notStarted ∧
    ∃ addr, (key, addr) ∈ s.learnt ∧ (key, addr) ∈ s.search.alreadyQueried
  unfound : ∀ p values, (p, .ok (.found values)) ∉ s.answered
  ended : s.search.status = .returned none →
    s.search.lookups = [] ∧ (s.search.shouldComplete = true ∨ s.search.providers = [])

namespace Accounted

variable {key : KeyID} {s s' : SearchRun}

theorem take (inv : Accounted key s) (hstatus : s.search.status = .running)
    {provider : PeerID × String} (hlast : s.search.providers.getLast? = some provider) :
    Accounted key { s with search := s.search.take id provider } := by
  have hrunning : (s.search.take id provider).status = .running := hstatus
  refine ⟨inv.best.take hlast, fun p hp => ?_,
    fun p hp => inv.listed p (List.mem_of_mem_dropLast hp), fun hcomplete => ⟨?_, provider.2, ?_⟩,
    inv.unfound, fun hs => ?_⟩
  · rcases List.mem_cons.mp hp with rfl | hp
    · exact Or.inl (List.mem_append_right _ (List.mem_singleton_self _))
    · exact (inv.queried p hp).imp_left (List.mem_append_left _)
  · rw [hrunning]
    rintro ⟨⟩
  · rw [← inv.best.key_eq, ← of_decide_eq_true hcomplete]
    exact ⟨inv.listed _ (List.mem_of_getLast? hlast), List.mem_cons_self⟩
  · cases hrunning.symm.trans hs

theorem takes (inv : Accounted key s) (hstatus : s.search.status = .running)
    {t : DhtSearch (PeerID × String)} (h : ReflTransGen (Takes id) s.search t) :
    Accounted key { s with search := t } := by
  have hkept : t.status = .running ∧ Accounted key { s with search := t } := by
    refine of_takes (P := fun t => t.status = .running ∧ Accounted key { s with search := t })
      (fun u provider hu _ hlast => ?_) h ⟨hstatus, inv⟩
    exact ⟨hu.1, hu.2.take (s := { s with search := u }) hu.1 hlast⟩
  exact hkept.2

theorem goOn (inv : Accounted key s) : Accounted key { s with search := s.search.goOn id } := by
  rw [DhtSearch.goOn]
  split
  · rename_i hstatus
    obtain ⟨t, htakes, ⟨heq, -⟩ | ⟨heq, hnil, hwhy⟩⟩ := fill_cases id s.search
    · rw [heq]
      exact inv.takes hstatus htakes
    · have inv' := inv.takes hstatus htakes
      rw [heq]
      refine ⟨⟨inv'.best.key_eq, inv'.best.known, inv'.best.sorted⟩, inv'.queried, inv'.listed,
        fun hcomplete => ⟨?_, (inv'.complete hcomplete).2⟩, inv'.unfound, fun _ => ⟨hnil, hwhy⟩⟩
      rintro ⟨⟩
  · exact inv

/-- **A step keeps the account**, unless it returns values. -/
theorem step (inv : Accounted key s) {l : SearchLabel} (h : s.step l = some s') :
    (∃ values, s'.search.status = .returned (some values)) ∨ Accounted key s' := by
  obtain ⟨s₀, henter, rfl⟩ := Option.map_eq_some_iff.mp h
  have hbest := SearchRun.bestFirst_of_enter inv.best henter
  cases l with
  | begin pool =>
    rw [SearchRun.enter] at henter
    split at henter
    · rename_i hstatus
      cases henter
      refine Or.inr (Accounted.goOn ⟨hbest, inv.queried, fun p hp => ?_,
        fun hcomplete => absurd hstatus (inv.complete hcomplete).1, inv.unfound, fun hs => ?_⟩)
      · exact mem_sortByDistance.mp (List.mem_reverse.mp hp)
      · cases hs
    · cases henter
  | complete i result =>
    rw [SearchRun.enter] at henter
    split at henter
    · rename_i provider hstatus hi
      cases henter
      -- who was under way still is, or has just answered
      have hqueried : ∀ p ∈ s.search.alreadyQueried, p ∈ s.search.lookups.eraseIdx i ∨
          ∃ result', (p, result') ∈ s.answered ++ [(provider, result)] := by
        intro p hp
        rcases inv.queried p hp with h | ⟨result', h⟩
        · obtain ⟨hlt, hget⟩ := List.getElem?_eq_some_iff.mp hi
          have hperm := List.getElem_cons_eraseIdx_perm hlt
          rcases List.mem_cons.mp (hperm.symm.subset h) with rfl | h
          · rw [hget]
            exact Or.inr ⟨result, List.mem_append_right _ (List.mem_singleton_self _)⟩
          · exact Or.inl h
        · exact Or.inr ⟨result', List.mem_append_left _ h⟩
      have hunfound : (∀ values, result ≠ .ok (.found values)) →
          ∀ p values, (p, .ok (.found values)) ∉ s.answered ++ [(provider, result)] := by
        intro hne p values hmem
        rcases List.mem_append.mp hmem with h | h
        · exact inv.unfound p values h
        · exact hne values (Prod.mk.inj (List.mem_singleton.mp h)).2.symm
      have hended : s.search.status ≠ .returned none := by
        rw [hstatus]
        rintro ⟨⟩
      have hcomplete : s.search.shouldComplete = true → s.search.status ≠ .notStarted ∧
          ∃ addr, (key, addr) ∈ s.learnt ++ suggestions result ∧
            (key, addr) ∈ s.search.alreadyQueried := by
        intro hcomplete
        obtain ⟨hstarted, addr, hlearnt, hmem⟩ := inv.complete hcomplete
        exact ⟨hstarted, addr, List.mem_append_left _ hlearnt, hmem⟩
      rcases result with e | values | peers
      · refine Or.inr (Accounted.goOn ⟨hbest, hqueried,
          fun p hp => List.mem_append_left _ (inv.listed p hp), hcomplete, hunfound ?_,
          fun hs => absurd hs hended⟩)
        rintro values ⟨⟩
      · exact Or.inl ⟨values, rfl⟩
      · refine Or.inr (Accounted.goOn ⟨hbest, hqueried, fun p hp => ?_, hcomplete, hunfound ?_,
          fun hs => absurd hs hended⟩)
        · exact List.mem_append.mpr ((mem_moreProviders.mp hp).1.imp_left (inv.listed p))
        · rintro values ⟨⟩
    · cases henter

/-- Of what is queried nothing is under way in the end. -/
theorem reason (inv : Accounted key s) (hnone : s.search.status = .returned none) :
    (∀ p values, (p, .ok (.found values)) ∉ s.answered) ∧
      ((∃ addr result, (key, addr) ∈ s.learnt ∧ ((key, addr), result) ∈ s.answered) ∨
        ∀ p ∈ s.learnt, ∃ result, (p, result) ∈ s.answered) := by
  obtain ⟨hnil, hwhy⟩ := inv.ended hnone
  have hanswered : ∀ p ∈ s.search.alreadyQueried, ∃ result, (p, result) ∈ s.answered := by
    intro p hp
    refine (inv.queried p hp).resolve_left fun hmem => ?_
    rw [hnil] at hmem
    cases hmem
  refine ⟨inv.unfound, ?_⟩
  rcases hwhy with hcomplete | hproviders
  · obtain ⟨-, addr, hlearnt, hmem⟩ := inv.complete hcomplete
    obtain ⟨result, hresult⟩ := hanswered _ hmem
    exact Or.inl ⟨addr, result, hlearnt, hresult⟩
  · refine Or.inr fun p hp => hanswered p ((inv.best.known p hp).resolve_left fun hmem => ?_)
    rw [hproviders] at hmem
    cases hmem

end Accounted

theorem SearchRun.accounted_of_exec {key : KeyID} {labels : List SearchLabel} {s : SearchRun}
    (h : exec SearchRun.step (.init key) labels = some s) :
    (∃ values, s.search.status = .returned (some values)) ∨ Accounted key s := by
  refine invariant_of_exec (I := fun s => (∃ values, s.search.status = .returned (some values)) ∨
    Accounted key s) (fun s l s' inv hstep => ?_) h (Or.inr ?_)
  · rcases inv with ⟨values, hs⟩ | inv
    · rcases SearchRun.begin_or_complete hstep with ⟨-, -, hs'⟩ | ⟨-, -, -, hs'⟩
      · cases hs.symm.trans hs'
      · cases hs.symm.trans hs'
    · exact inv.step hstep
  · have hinit : exec SearchRun.step (SearchRun.init key) [] = some (SearchRun.init key) := rfl
    refine ⟨SearchRun.bestFirst_of_exec hinit, fun p hp => ?_, fun p hp => ?_, fun hs => ?_,
      fun p values hmem => ?_, fun hs => ?_⟩
    · cases hp
    · cases hp
    · cases hs
    · cases hmem
    · cases hs

/-- **`dht_lookup` gives up with a reason.**  When it returns nothing no lookup has
answered with values, and either a pair of the peer that has the key for its id was learnt of
and queried, and its lookup has completed, or every pair that was learnt of was. -/
theorem dht_lookup_gives_up_with_reason (key : KeyID) {labels : List SearchLabel} {s : SearchRun}
    (h : exec SearchRun.step (.init key) labels = some s)
    (hnone : s.search.status = .returned none) :
    (∀ p values, (p, .ok (.found values)) ∉ s.answered) ∧
      ((∃ addr result, (key, addr) ∈ s.learnt ∧ ((key, addr), result) ∈ s.answered) ∨
        ∀ p ∈ s.learnt, ∃ result, (p, result) ∈ s.answered) := by
  rcases SearchRun.accounted_of_exec h with ⟨values, hs⟩ | inv
  · cases hnone.symm.trans hs
  · exact inv.reason hnone

/-- A peer is connected.  It suggests the peer of the key and another one, and the peer of
the key cannot be reached. -/
def outOfReach (ourPeerId key q p : PeerID) : List SearchLabel :=
  [.begin ((ConnectionPool.new ourPeerId).insert q ⟨"local-1", 0, none, 0⟩),
    .complete 0 (.ok (.notFound [(key, "remote-1"), (p, "remote-2")])),
    .complete 0 (.error .failedToConnect)]

theorem exec_outOfReach {key q p : PeerID} (hq : q ≠ key) (ourPeerId : PeerID) :
    ∃ s, exec SearchRun.step (.init key) (outOfReach ourPeerId key q p) = some s ∧
      s.search.status = .returned none ∧ (p, "remote-2") ∈ s.learnt ∧
      s.search.alreadyQueried = [(key, "remote-1"), (q, "local-1")] ∧
      s.answered = [((q, "local-1"), .ok (.notFound [(key, "remote-1"), (p, "remote-2")])),
        ((key, "remote-1"), .error .failedToConnect)] := by
  let u : DhtSearch (PeerID × String) :=
    { key := key
      providers := []
      alreadyQueried := [(q, "local-1")]
      lookups := [(q, "local-1")]
      shouldComplete := false
      status := .running }
  have hmore : u.moreProviders [(key, "remote-1"), (p, "remote-2")] =
      [(p, "remote-2"), (key, "remote-1")] := by
    have hfilter : (u.providers ++ [(key, "remote-1"), (p, "remote-2")]).filter
        (· ∉ u.alreadyQueried) = [(key, "remote-1"), (p, "remote-2")] := by
      simp [u]
    -- nobody is nearer than the peer of the key
    have hsort : sortByDistance key [(key, "remote-1"), (p, "remote-2")] =
        [(key, "remote-1"), (p, "remote-2")] := by
      refine List.mergeSort_of_pairwise (List.pairwise_pair.mpr (noFarther_iff.mpr ?_))
      rw [PeerID.distanceNat_self]
      exact Nat.zero_le _
    rw [DhtSearch.moreProviders, hfilter, hsort, List.destutter_of_isChain _ _ (by simp)]
    rfl
  rw [outOfReach, exec_cons, step_begin_new hq]
  simp only [Option.bind_some, exec_cons, SearchRun.step, SearchRun.enter, resume]
  show ∃ s, Option.bind (Option.map _ (some (SearchRun.mk { u with
    lookups := [], providers := u.moreProviders [(key, "remote-1"), (p, "remote-2")] } _ _))) _ = _ ∧ _
  rw [hmore]
  simp [DhtSearch.goOn, DhtSearch.fill, DhtSearch.fillWith, kademliaAlpha, u, suggestions, exec]

/-- **The peer of the key did not answer, and the other one was not asked.** -/
theorem gives_up_on_unreached_key :
    ∃ s, exec SearchRun.step (.init searchedKey)
        (outOfReach ⟨realSha256 []⟩ searchedKey askedPeer namedPeer) = some s ∧
      s.search.status = .returned none ∧
      (∀ addr peers, ((searchedKey, addr), .ok (.notFound peers)) ∉ s.answered) ∧
      ∃ p ∈ s.learnt, p ∉ s.search.alreadyQueried := by
  obtain ⟨s, hrun, hnone, hlearnt, hqueried, hanswered⟩ :=
    exec_outOfReach (p := namedPeer) askedPeer_ne ⟨realSha256 []⟩
  refine ⟨s, hrun, hnone, fun addr peers hmem => ?_, _, hlearnt, ?_⟩
  · rw [hanswered] at hmem
    simp [askedPeer_ne.symm] at hmem
  · rw [hqueried]
    simp

/-- The peer of the key was queried. -/
theorem dht_lookup_gives_up_with_reason_outOfReach :
    ∃ s, exec SearchRun.step (.init searchedKey)
        (outOfReach ⟨realSha256 []⟩ searchedKey askedPeer namedPeer) = some s ∧
      ((∃ addr result, (searchedKey, addr) ∈ s.learnt ∧
          ((searchedKey, addr), result) ∈ s.answered) ∨
        ∀ p ∈ s.learnt, ∃ result, (p, result) ∈ s.answered) := by
  obtain ⟨s, hrun, hnone, -⟩ := exec_outOfReach (p := namedPeer) askedPeer_ne ⟨realSha256 []⟩
  exact ⟨s, hrun, (dht_lookup_gives_up_with_reason searchedKey hrun hnone).2⟩

end Tewta
