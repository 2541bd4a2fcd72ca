import Tewta.Node.DhtSearch

/-!
# In which order providers are asked

The providers are sorted after every response that suggests some, and nothing but taking
the last one happens in between, so the last one is always the nearest
(`dht_lookup_is_best_first`), and what was learnt is either still in the list or was taken
from it.

What is taken was not taken before as long as the list has no pair twice.  `dedup` only
looks at neighbours, and the sort only at the peer: a peer that is listed under one
address, under another and under the first again stays in the list three times.  This is
what `Unrepeated` excludes, and all that can go wrong (`asks_once_iff_unrepeated`).
-/

namespace Tewta

open Transition DhtSearch
open Relation (ReflTransGen)

/-! ### The nearest first -/

/-- What was learnt is in the list or was queried, and the list is sorted. -/
structure BestFirst (key : KeyID) (learnt : List (PeerID × String))
    (s : DhtSearch (PeerID × String)) : Prop where
  key_eq : s.key = key
  known : ∀ p ∈ learnt, p ∈ s.providers ∨ p ∈ s.alreadyQueried
  sorted : s.Sorted

namespace BestFirst

variable {key : KeyID} {learnt : List (PeerID × String)} {s t : DhtSearch (PeerID × String)}

theorem take (inv : BestFirst key learnt s) {provider : PeerID × String}
    (hlast : s.providers.getLast? = some provider) : BestFirst key learnt (s.take id provider) := by
  obtain ⟨l, hl⟩ := List.getLast?_eq_some_iff.mp hlast
  have hdrop : (s.take id provider).providers = l := by
    show s.providers.dropLast = l
    rw [hl, List.dropLast_concat]
  refine ⟨inv.key_eq, fun p hp => ?_, ?_⟩
  · rw [hdrop]
    rcases inv.known p hp with h | h
    · rw [hl, List.mem_append, List.mem_singleton] at h
      rcases h with h | rfl
      · exact Or.inl h
      · exact Or.inr List.mem_cons_self
    · exact Or.inr (List.mem_cons_of_mem _ h)
  · have hsorted := inv.sorted
    rw [Sorted, hl] at hsorted
    rw [Sorted, hdrop]
    exact (List.pairwise_append.mp hsorted).1

theorem takes (inv : BestFirst key learnt s) (h : ReflTransGen (Takes id) s t) :
    BestFirst key learnt t :=
  of_takes (fun _ _ inv _ hlast => inv.take hlast) h inv

theorem fillWith (inv : BestFirst key learnt s) (n : ℕ) :
    BestFirst key learnt (DhtSearch.fillWith id n s) := by
  obtain ⟨t, htakes, ⟨heq, -⟩ | ⟨heq, -⟩⟩ := fillWith_cases id n s
  · rw [heq]
    exact inv.takes htakes
  · have inv' := inv.takes htakes
    rw [heq]
    exact ⟨inv'.key_eq, inv'.known, inv'.sorted⟩

theorem goOn (inv : BestFirst key learnt s) : BestFirst key learnt (s.goOn id) := by
  rw [DhtSearch.goOn]
  split
  · obtain ⟨t, htakes, ⟨heq, -⟩ | ⟨heq, -⟩⟩ := fill_cases id s
    · rw [heq]
      exact inv.takes htakes
    · have inv' := inv.takes htakes
      rw [heq]
      exact ⟨inv'.key_eq, inv'.known, inv'.sorted⟩
  · exact inv

end BestFirst

namespace SearchRun

variable {key : KeyID} {s s' : SearchRun} {l : SearchLabel}

theorem bestFirst_of_enter (inv : BestFirst key s.learnt s.search) (h : s.enter l = some s') :
    BestFirst key s'.learnt s'.search := by
  cases l with
  | begin pool =>
    rw [enter] at h
    split at h
    · cases h
      refine ⟨inv.key_eq, fun p hp => Or.inl ?_, ?_⟩
      · exact List.mem_reverse.mpr (mem_sortByDistance.mpr hp)
      · exact List.pairwise_reverse.mpr (pairwise_sortByDistance _ _)
    · cases h
  | complete i result =>
    rw [enter] at h
    split at h
    · cases h
      have hsame : suggestions result = [] → ∀ p ∈ s.learnt ++ suggestions result,
          p ∈ s.search.providers ∨ p ∈ s.search.alreadyQueried := by
        intro hnil p hp
        rw [hnil, List.append_nil] at hp
        exact inv.known p hp
      match result with
      | .ok (.found values) => exact ⟨inv.key_eq, hsame rfl, inv.sorted⟩
      | .error e => exact ⟨inv.key_eq, hsame rfl, inv.sorted⟩
      | .ok (.notFound peers) =>
        refine ⟨inv.key_eq, fun p hp => ?_, pairwise_moreProviders s.search peers⟩
        by_cases hqueried : p ∈ s.search.alreadyQueried
        · exact Or.inr hqueried
        · refine Or.inl (mem_moreProviders.mpr ⟨?_, hqueried⟩)
          rcases List.mem_append.mp hp with hp | hp
          · exact Or.inl ((inv.known p hp).resolve_right hqueried)
          · exact Or.inr hp
    · cases h

theorem bestFirst_of_step (inv : BestFirst key s.learnt s.search) (h : s.step l = some s') :
    BestFirst key s'.learnt s'.search := by
  obtain ⟨s₀, henter, rfl⟩ := Option.map_eq_some_iff.mp h
  exact (bestFirst_of_enter inv henter).goOn

theorem bestFirst_of_exec {labels : List SearchLabel}
    (h : exec SearchRun.step (.init key) labels = some s) : BestFirst key s.learnt s.search := by
  have hinit : BestFirst key [] (DhtSearch.init key) := by
    refine ⟨rfl, fun p hp => ?_, List.Pairwise.nil⟩
    cases hp
  exact invariant_of_exec (I := fun s => BestFirst key s.learnt s.search)
    (fun _ _ _ inv hstep => bestFirst_of_step inv hstep) h hinit

end SearchRun

/-- **Best first, and nothing is forgotten.**  Whatever the pool and the results are and in
whatever order the lookups complete, before and after every iteration of the inner loop
each pair that was connected at the beginning or suggested is in the list of providers or
was queried, and the pair that would be taken next is no farther from the key than any
other pair of the list. -/
theorem dht_lookup_is_best_first (key : KeyID) {labels : List SearchLabel} {s s₀ : SearchRun}
    {l : SearchLabel} (h : exec SearchRun.step (.init key) labels = some s)
    (henter : s.enter l = some s₀) (n : ℕ) :
    (∀ p ∈ s₀.learnt, p ∈ (fillWith id n s₀.search).providers ∨
      p ∈ (fillWith id n s₀.search).alreadyQueried) ∧
    ∀ provider, (fillWith id n s₀.search).providers.getLast? = some provider →
      ∀ p ∈ (fillWith id n s₀.search).providers,
        (compare (provider.1.distance key).toList (p.1.distance key).toList).isLE = true := by
  have inv := (SearchRun.bestFirst_of_enter (SearchRun.bestFirst_of_exec h) henter).fillWith n
  refine ⟨inv.known, fun provider hlast p hp => ?_⟩
  have hnearer := inv.sorted.noFarther_of_getLast? hlast hp
  rw [inv.key_eq] at hnearer
  exact hnearer

theorem step_begin_new {key q : PeerID} (hq : q ≠ key) (ourPeerId : PeerID) (peer : PeerInfo) :
    (SearchRun.init key).step (.begin ((ConnectionPool.new ourPeerId).insert q peer)) = some
      { search :=
          { key := key
            providers := []
            alreadyQueried := [(q, peer.addr)]
            lookups := [(q, peer.addr)]
            shouldComplete := false
            status := .running }
        learnt := [(q, peer.addr)]
        answered := [] } := by
  simp [SearchRun.step, SearchRun.enter, SearchRun.init, DhtSearch.init, DhtSearch.begin,
    ConnectionPool.peersWithAddrs_insert_new, sortByDistance, goOn, DhtSearch.fill,
    DhtSearch.fillWith, kademliaAlpha, hq]

/-- One peer is connected, and it suggests another. -/
theorem dht_lookup_is_best_first_pair : ∃ s s₀,
    exec SearchRun.step (.init ⟨realSha256 [2]⟩)
        [.begin ((ConnectionPool.new ⟨realSha256 []⟩).insert ⟨realSha256 [1]⟩
          ⟨"local-1", 0, none, 0⟩)] = some s ∧
      s.enter (.complete 0 (.ok (.notFound [(⟨realSha256 [3]⟩, "remote-1")]))) = some s₀ ∧
      ∀ p ∈ s₀.learnt, p ∈ (fillWith id 1 s₀.search).providers ∨
        p ∈ (fillWith id 1 s₀.search).alreadyQueried := by
  have hne : (⟨realSha256 [1]⟩ : PeerID) ≠ ⟨realSha256 [2]⟩ := by decide +kernel
  have hrun := (exec_singleton _ _).trans
    (step_begin_new hne ⟨realSha256 []⟩ ⟨"local-1", 0, none, 0⟩)
  exact ⟨_, _, hrun, rfl, (dht_lookup_is_best_first ⟨realSha256 [2]⟩ hrun
    (l := .complete 0 (.ok (.notFound [(⟨realSha256 [3]⟩, "remote-1")]))) rfl 1).1⟩

/-! ### Nobody is asked twice -/

/-- What is left of the providers once some more are suggested, before the sort. -/
def DhtSearch.merged {α : Type} (s : DhtSearch α) (peers : List (PeerID × String)) :
    List (PeerID × String) :=
  (s.providers ++ peers).filter (· ∉ s.alreadyQueried)

/-- No peer is listed under one address, under another and under the first again, unless
the loop stops before it could matter. -/
def DhtSearch.Unrepeated {α : Type} (s : DhtSearch α) (peers : List (PeerID × String)) : Prop :=
  s.shouldComplete = true ∨ (∃ addr, (s.key, addr) ∈ s.merged peers) ∨
    ∀ n addr addr', addr ≠ addr' → ¬ [(n, addr), (n, addr'), (n, addr)].Sublist (s.merged peers)

/-- The steps that suggest no peer in that way. -/
def SearchRun.Unrepeated (s : SearchRun) : SearchLabel → Prop
  | .complete _ (.ok (.notFound peers)) => s.search.Unrepeated peers
  | _ => True

/-- No pair was passed to `dht_lookup_on_single_provider` twice, and none will be before
the next suggestions. -/
def SearchRun.AsksOnce (s : SearchRun) : Prop :=
  ∀ labels t, (∀ l ∈ labels, ∃ i e, l = .complete i (.error e)) →
    exec SearchRun.step s labels = some t → t.search.alreadyQueried.Nodup

/-- What is taken next was not queried. -/
structure Fresh (s : DhtSearch (PeerID × String)) : Prop where
  nodup : s.alreadyQueried.Nodup
  next : s.shouldComplete = true ∨
    (∃ p, s.providers.getLast? = some p ∧ p.1 = s.key ∧ p ∉ s.alreadyQueried) ∨
    s.providers.Nodup ∧ ∀ p ∈ s.providers, p ∉ s.alreadyQueried

namespace DhtSearch

variable {s t : DhtSearch (PeerID × String)} {peers : List (PeerID × String)}

/-- **What is in the list twice**: a peer that comes back under an address it had. -/
theorem nodup_moreProviders_iff : (s.moreProviders peers).Nodup ↔
    ∀ n addr addr', addr ≠ addr' →
      ¬ [(n, addr), (n, addr'), (n, addr)].Sublist (s.merged peers) := by
  rw [moreProviders, List.nodup_reverse, sortByDistance]
  refine (SortDedup.nodup_destutter_mergeSort_iff (f := Prod.fst) (noFarther_trans s.key)
    (noFarther_total s.key) (eq_iff_noFarther s.key) _).trans ⟨?_, ?_⟩
  · intro h n addr addr' hne
    exact h (n, addr) (n, addr') (fun heq => hne (Prod.mk.inj heq).2) rfl
  · rintro h ⟨n, addr⟩ ⟨n', addr'⟩ hne rfl
    exact h n addr addr' fun heq => hne (by rw [heq])

/-- The pair of the key comes first. -/
theorem getLast?_moreProviders {addr : String} (h : (s.key, addr) ∈ s.moreProviders peers) :
    ∃ p, (s.moreProviders peers).getLast? = some p ∧ p.1 = s.key ∧ p ∉ s.alreadyQueried := by
  cases hlast : (s.moreProviders peers).getLast? with
  | none =>
    rw [List.getLast?_eq_none_iff.mp hlast] at h
    cases h
  | some p =>
    have hsorted : Sorted { s with providers := s.moreProviders peers } :=
      pairwise_moreProviders s peers
    have hle := noFarther_iff.mp (hsorted.noFarther_of_getLast? hlast h)
    have hzero : p.1.distanceNat s.key = s.key.distanceNat s.key := by
      refine le_antisymm hle ?_
      rw [PeerID.distanceNat_self]
      exact Nat.zero_le _
    exact ⟨p, rfl, PeerID.distanceNat_inj hzero,
      (mem_moreProviders.mp (List.mem_of_getLast? hlast)).2⟩

theorem status_goOn (h : s.status ≠ .notStarted) : (s.goOn id).status ≠ .notStarted := by
  rw [goOn]
  split
  · obtain ⟨t, htakes, ⟨heq, -⟩ | ⟨heq, -⟩⟩ := fill_cases id s
    · obtain ⟨new, -, hstatus⟩ := lookups_of_takes htakes
      rw [heq, hstatus]
      exact h
    · rw [heq]
      rintro ⟨⟩
  · exact h

end DhtSearch

namespace Fresh

variable {s t : DhtSearch (PeerID × String)} {peers : List (PeerID × String)}

theorem take (inv : Fresh s) {provider : PeerID × String} (hcomplete : s.shouldComplete = false)
    (hlast : s.providers.getLast? = some provider) : Fresh (s.take id provider) := by
  obtain ⟨l, hl⟩ := List.getLast?_eq_some_iff.mp hlast
  have hdrop : (s.take id provider).providers = l := by
    show s.providers.dropLast = l
    rw [hl, List.dropLast_concat]
  rcases inv.next with hnext | ⟨p, hp, hkey, hnew⟩ | ⟨hnodup, hnew⟩
  · rw [hcomplete] at hnext
    cases hnext
  · obtain rfl := Option.some.inj (hp.symm.trans hlast)
    exact ⟨List.nodup_cons.mpr ⟨hnew, inv.nodup⟩, Or.inl (decide_eq_true hkey)⟩
  · rw [hl] at hnodup hnew
    have hprovider := hnew provider (List.mem_append_right _ (List.mem_singleton_self _))
    refine ⟨List.nodup_cons.mpr ⟨hprovider, inv.nodup⟩, Or.inr (Or.inr ?_)⟩
    rw [hdrop]
    refine ⟨(List.nodup_append.mp hnodup).1, fun p hp hqueried => ?_⟩
    rcases List.mem_cons.mp hqueried with rfl | hqueried
    · exact (List.nodup_append.mp hnodup).2.2 p hp p (List.mem_singleton_self _) rfl
    · exact hnew p (List.mem_append_left _ hp) hqueried

theorem goOn (inv : Fresh s) : Fresh (s.goOn id) := by
  have htakes : ∀ {t}, ReflTransGen (Takes id) s t → Fresh t := fun h =>
    of_takes (fun _ _ inv hcomplete hlast => inv.take hcomplete hlast) h inv
  rw [DhtSearch.goOn]
  split
  · obtain ⟨t, h, ⟨heq, -⟩ | ⟨heq, -⟩⟩ := fill_cases id s
    · rw [heq]
      exact htakes h
    · rw [heq]
      exact ⟨(htakes h).nodup, (htakes h).next⟩
  · exact inv

theorem moreProviders (inv : Fresh s) (h : s.Unrepeated peers) {lookups : List (PeerID × String)} :
    Fresh { s with lookups := lookups, providers := s.moreProviders peers } := by
  refine ⟨inv.nodup, ?_⟩
  rcases h with hcomplete | ⟨addr, hmem⟩ | h
  · exact Or.inl hcomplete
  · rw [merged, List.mem_filter, List.mem_append, decide_eq_true_iff] at hmem
    have hmore : (s.key, addr) ∈ s.moreProviders peers := mem_moreProviders.mpr hmem
    exact Or.inr (Or.inl (getLast?_moreProviders hmore))
  · refine Or.inr (Or.inr ⟨nodup_moreProviders_iff.mpr h, fun p hp => ?_⟩)
    exact (mem_moreProviders.mp hp).2

end Fresh

theorem nodup_begin (key : KeyID) (pool : ConnectionPool) :
    (sortByDistance key pool.peersWithAddrs).reverse.Nodup := by
  have hpeers : pool.peersWithAddrs.Nodup := by
    rw [ConnectionPool.peersWithAddrs]
    refine List.Pairwise.map _ (fun p q (hne : p.1 ≠ q.1) heq => hne (Prod.mk.inj heq).1) ?_
    refine Std.ExtTreeMap.distinct_keys_toList.imp fun hne heq => hne ?_
    rw [heq]
    exact Std.ReflCmp.compare_self
  exact List.nodup_reverse.mpr ((List.mergeSort_perm _ _).nodup_iff.mpr hpeers)

namespace SearchRun

variable {key : KeyID} {s s' : SearchRun} {l : SearchLabel}

/-- What the next pairs are new by, and nothing was queried before the beginning. -/
def Inv (s : SearchRun) : Prop :=
  Fresh s.search ∧ (s.search.status = .notStarted → s.search.alreadyQueried = [])

theorem inv_init (key : KeyID) : (SearchRun.init key).Inv :=
  ⟨⟨List.nodup_nil, Or.inr (Or.inr ⟨List.nodup_nil, fun p hp => by cases hp⟩)⟩, fun _ => rfl⟩

theorem Inv.step (inv : s.Inv) (hok : s.Unrepeated l) (h : s.step l = some s') : s'.Inv := by
  obtain ⟨s₀, henter, rfl⟩ := Option.map_eq_some_iff.mp h
  have hfresh : Fresh s₀.search ∧ s₀.search.status ≠ .notStarted := by
    cases l with
    | begin pool =>
      rw [enter] at henter
      split at henter
      · rename_i hstatus
        cases henter
        refine ⟨⟨inv.1.nodup, Or.inr (Or.inr ⟨nodup_begin _ _, fun p _ hp => ?_⟩)⟩,
          fun hs => by cases hs⟩
        have hnil : s.search.alreadyQueried = [] := inv.2 hstatus
        rw [DhtSearch.begin, hnil] at hp
        cases hp
      · cases henter
    | complete i result =>
      rw [enter] at henter
      split at henter
      · rename_i hstatus _
        cases henter
        have hrunning : s.search.status ≠ .notStarted := by
          rw [hstatus]
          rintro ⟨⟩
        match result with
        | .ok (.found values) => exact ⟨⟨inv.1.nodup, inv.1.next⟩, fun hs => by cases hs⟩
        | .error e => exact ⟨⟨inv.1.nodup, inv.1.next⟩, hrunning⟩
        | .ok (.notFound peers) => exact ⟨inv.1.moreProviders hok, hrunning⟩
      · cases henter
  exact ⟨hfresh.1.goOn, fun hs => absurd hs (status_goOn hfresh.2)⟩

theorem meets_of_errors {labels : List SearchLabel}
    (hl : ∀ l ∈ labels, ∃ i e, l = .complete i (.error e)) :
    Meets SearchRun.step SearchRun.Unrepeated s labels := by
  refine meets_of_forall fun l hmem s => ?_
  obtain ⟨i, e, rfl⟩ := hl l hmem
  trivial

theorem Inv.asksOnce (inv : s.Inv) : s.AsksOnce := fun _ _ hl hrun =>
  (invariant_of_meets (fun _ _ _ inv hok hstep => Inv.step inv hok hstep) (meets_of_errors hl)
    hrun inv).1.nodup

/-! ### What is in the list twice is asked twice -/

/-- Nothing stops the loop but the end of the list. -/
structure Unhindered (s : DhtSearch (PeerID × String)) : Prop where
  running : s.status = .running
  incomplete : s.shouldComplete = false
  key_notMem : ∀ addr, (s.key, addr) ∉ s.providers

theorem Unhindered.take {u : DhtSearch (PeerID × String)} (h : Unhindered u)
    {provider : PeerID × String} (hlast : u.providers.getLast? = some provider) :
    Unhindered (u.take id provider) ∧
      ((u.take id provider).providers ++ (u.take id provider).alreadyQueried).Perm
        (u.providers ++ u.alreadyQueried) := by
  obtain ⟨l, hl⟩ := List.getLast?_eq_some_iff.mp hlast
  have hdrop : (u.take id provider).providers = l := by
    show u.providers.dropLast = l
    rw [hl, List.dropLast_concat]
  have hkey := h.key_notMem
  rw [hl] at hkey
  refine ⟨⟨h.running, decide_eq_false ?_, fun addr hmem => ?_⟩, ?_⟩
  · intro heq
    rw [← heq] at hkey
    exact hkey provider.2 (List.mem_append_right _ (List.mem_singleton_self _))
  · rw [hdrop] at hmem
    exact hkey addr (List.mem_append_left _ hmem)
  · rw [hdrop, hl, List.append_assoc]
    rfl

/-- The loop up to the wait, where nothing stops it but the end of the list. -/
theorem fill_unhindered {u : DhtSearch (PeerID × String)} (hu : Unhindered u) :
    ∃ t, Unhindered t ∧
      (t.providers ++ t.alreadyQueried).Perm (u.providers ++ u.alreadyQueried) ∧
      2 * t.providers.length + t.lookups.length ≤ 2 * u.providers.length + u.lookups.length ∧
      ((u.fill id = t ∧ t.lookups ≠ []) ∨
        u.fill id = { t with status := .returned none } ∧ t.providers = []) := by
  obtain ⟨t, htakes, hcase⟩ := fill_cases id u
  have hkept : Unhindered t ∧
      (t.providers ++ t.alreadyQueried).Perm (u.providers ++ u.alreadyQueried) ∧
      2 * t.providers.length + t.lookups.length ≤
        2 * u.providers.length + u.lookups.length := by
    refine of_takes (P := fun t => Unhindered t ∧
      (t.providers ++ t.alreadyQueried).Perm (u.providers ++ u.alreadyQueried) ∧
      2 * t.providers.length + t.lookups.length ≤ 2 * u.providers.length + u.lookups.length)
      ?_ htakes ⟨hu, .refl _, le_rfl⟩
    intro v provider ⟨hv, hperm, hlen⟩ _ hlast
    obtain ⟨hv', hperm'⟩ := hv.take hlast
    refine ⟨hv', hperm'.trans hperm, ?_⟩
    have hpos : 0 < v.providers.length :=
      List.length_pos_of_mem (List.mem_of_getLast? hlast)
    have hdrop : (v.take id provider).providers.length = v.providers.length - 1 :=
      List.length_dropLast
    have hadd : (v.take id provider).lookups.length = v.lookups.length + 1 := by
      show (v.lookups ++ [provider]).length = _
      rw [List.length_append, List.length_singleton]
    omega
  obtain ⟨ht, hperm, hlen⟩ := hkept
  refine ⟨t, ht, hperm, hlen, ?_⟩
  rcases hcase with h | ⟨heq, -, hcomplete | hproviders⟩
  · exact Or.inl h
  · rw [ht.incomplete] at hcomplete
    cases hcomplete
  · exact Or.inr ⟨heq, hproviders⟩

/-- **Every pair of the list is asked in the end**, if the lookups fail. -/
theorem exists_drain (m : ℕ) : ∀ (u : DhtSearch (PeerID × String)) (r : SearchRun),
    2 * u.providers.length + u.lookups.length ≤ m → Unhindered u →
    ∃ labels t, (∀ l ∈ labels, ∃ i e, l = SearchLabel.complete i (.error e)) ∧
      exec SearchRun.step { r with search := u.fill id } labels = some t ∧
      t.search.alreadyQueried.Perm (u.providers ++ u.alreadyQueried) := by
  induction m using Nat.strong_induction_on with
  | _ m ih =>
    intro u r hm hu
    obtain ⟨t, hut, hperm, hlen, ⟨heq, hne⟩ | ⟨heq, hnil⟩⟩ := fill_unhindered hu
    · obtain ⟨p, rest, hlookups⟩ := List.exists_cons_of_ne_nil hne
      -- the first lookup fails
      let t' : DhtSearch (PeerID × String) := { t with lookups := rest }
      have hstep : SearchRun.step { r with search := u.fill id }
          (.complete 0 (.error .failedToConnect)) =
            some ⟨t'.fill id, r.learnt ++ [], r.answered ++ [(p, .error .failedToConnect)]⟩ := by
        rw [heq]
        simp [SearchRun.step, enter, hut.running, hlookups, resume, DhtSearch.goOn, suggestions, t']
      have ht' : Unhindered t' := ⟨hut.running, hut.incomplete, hut.key_notMem⟩
      have hlength : t.lookups.length = rest.length + 1 := by rw [hlookups, List.length_cons]
      have hlen' : 2 * t'.providers.length + t'.lookups.length ≤ m - 1 := by
        show 2 * t.providers.length + rest.length ≤ m - 1
        omega
      obtain ⟨labels, v, hl, hrun, hperm'⟩ := ih (m - 1) (by omega) t'
        ⟨t', r.learnt ++ [], r.answered ++ [(p, .error .failedToConnect)]⟩ hlen' ht'
      refine ⟨.complete 0 (.error .failedToConnect) :: labels, v, fun l hmem => ?_,
        exec_cons_eq_some.mpr ⟨_, hstep, hrun⟩, hperm'.trans hperm⟩
      rcases List.mem_cons.mp hmem with rfl | hmem
      · exact ⟨0, _, rfl⟩
      · exact hl l hmem
    · refine ⟨[], _, fun l hl => (List.not_mem_nil hl).elim, rfl, ?_⟩
      rw [heq]
      rw [hnil] at hperm
      exact hperm

end SearchRun

/-- **No pair is asked twice exactly when none is suggested so that it comes back.** -/
theorem asks_once_iff_unrepeated (key : KeyID) {labels : List SearchLabel} {s : SearchRun}
    (h : exec SearchRun.step (.init key) labels = some s) :
    Always SearchRun.step SearchRun.AsksOnce (.init key) labels ↔
      Meets SearchRun.step SearchRun.Unrepeated (.init key) labels := by
  refine always_iff_meets (I := SearchRun.Inv) (fun _ _ _ inv hok hstep => inv.step hok hstep)
    (fun _ inv => inv.asksOnce) ?_ h (SearchRun.inv_init key)
  intro s l t _ hbad hstep honce
  match l with
  | .begin pool => exact hbad trivial
  | .complete i (.ok (.found values)) => exact hbad trivial
  | .complete i (.error e) => exact hbad trivial
  | .complete i (.ok (.notFound peers)) =>
    have hrepeated : ¬ s.search.Unrepeated peers := hbad
    rw [DhtSearch.Unrepeated, not_or, not_or, ← nodup_moreProviders_iff, Bool.not_eq_true,
      not_exists] at hrepeated
    obtain ⟨hcomplete, hkey, htwice⟩ := hrepeated
    obtain ⟨s₀, henter, rfl⟩ := Option.map_eq_some_iff.mp hstep
    rw [SearchRun.enter] at henter
    split at henter
    · rename_i hstatus _
      cases henter
      let u : DhtSearch (PeerID × String) := s.search.resume i (.ok (.notFound peers))
      have hu : SearchRun.Unhindered u := by
        refine ⟨hstatus, hcomplete, fun addr hmem => hkey addr ?_⟩
        rw [merged, List.mem_filter, List.mem_append, decide_eq_true_iff]
        exact mem_moreProviders.mp hmem
      have hgoOn : u.goOn id = u.fill id := by
        rw [DhtSearch.goOn, hu.running]
      obtain ⟨labels, t, hl, hrun, hperm⟩ := SearchRun.exists_drain _ u _ le_rfl hu
      refine htwice (List.Nodup.of_append_left (hperm.nodup_iff.mp ?_))
      refine honce labels t hl ?_
      rw [show s.search.resume i (.ok (.notFound peers)) = u from rfl, hgoOn]
      exact hrun
    · cases henter

/-! ### A peer under two addresses -/

/-- A peer is connected.  It suggests another one under two addresses, and under the first
of them once more. -/
def comesBack (ourPeerId q p : PeerID) : List SearchLabel :=
  [.begin ((ConnectionPool.new ourPeerId).insert q ⟨"local-1", 0, none, 0⟩),
    .complete 0 (.ok (.notFound [(p, "a"), (p, "b"), (p, "a")]))]

theorem exec_comesBack {key q p : PeerID} (hq : q ≠ key) (hp : p ≠ key) (hpq : p ≠ q)
    (ourPeerId : PeerID) :
    ∃ s, exec SearchRun.step (.init key) (comesBack ourPeerId q p) = some s ∧
      s.search.alreadyQueried = [(p, "a"), (p, "b"), (p, "a"), (q, "local-1")] := by
  have hsort : sortByDistance key [(p, "a"), (p, "b"), (p, "a")] =
      [(p, "a"), (p, "b"), (p, "a")] := by
    refine List.mergeSort_of_pairwise (List.pairwise_of_forall_mem_list ?_)
    intro a ha b hb
    refine noFarther_iff.mpr (le_of_eq ?_)
    have hfst : ∀ c ∈ [(p, "a"), (p, "b"), (p, "a")], c.1 = p := by simp
    rw [hfst a ha, hfst b hb]
  let u : DhtSearch (PeerID × String) :=
    { key := key
      providers := []
      alreadyQueried := [(q, "local-1")]
      lookups := [(q, "local-1")]
      shouldComplete := false
      status := .running }
  have hmore : u.moreProviders [(p, "a"), (p, "b"), (p, "a")] =
      [(p, "a"), (p, "b"), (p, "a")] := by
    have hfilter : (u.providers ++ [(p, "a"), (p, "b"), (p, "a")]).filter (· ∉ u.alreadyQueried) =
        [(p, "a"), (p, "b"), (p, "a")] := by
      simp [u, hpq]
    rw [DhtSearch.moreProviders, hfilter, hsort, List.destutter_of_isChain _ _ (by simp)]
    rfl
  rw [comesBack, exec_cons, step_begin_new hq]
  simp only [Option.bind_some, exec_singleton, SearchRun.step, SearchRun.enter, resume]
  show ∃ s, Option.map _ (some (SearchRun.mk { u with
    lookups := [], providers := u.moreProviders [(p, "a"), (p, "b"), (p, "a")] } _ _)) = _ ∧ _
  rw [hmore]
  simp [goOn, DhtSearch.fill, DhtSearch.fillWith, kademliaAlpha, hp, u]

/-- The peers of that run. -/
def searchedKey : KeyID := ⟨realSha256 [2]⟩

def askedPeer : PeerID := ⟨realSha256 [1]⟩

def namedPeer : PeerID := ⟨realSha256 [3]⟩

theorem askedPeer_ne : askedPeer ≠ searchedKey := by decide +kernel

theorem namedPeer_ne : namedPeer ≠ searchedKey := by decide +kernel

theorem namedPeer_ne_askedPeer : namedPeer ≠ askedPeer := by decide +kernel

/-- **A peer is asked twice.** -/
theorem peer_is_asked_twice :
    ∃ s, exec SearchRun.step (.init searchedKey) (comesBack ⟨realSha256 []⟩ askedPeer namedPeer) = some s ∧
      ¬ s.search.alreadyQueried.Nodup := by
  obtain ⟨s, hrun, hqueried⟩ := exec_comesBack askedPeer_ne namedPeer_ne namedPeer_ne_askedPeer
    ⟨realSha256 []⟩
  refine ⟨s, hrun, ?_⟩
  rw [hqueried]
  simp

/-- The peer comes back. -/
theorem asks_once_iff_unrepeated_comesBack :
    ¬ Meets SearchRun.step SearchRun.Unrepeated (.init searchedKey)
      (comesBack ⟨realSha256 []⟩ askedPeer namedPeer) := by
  obtain ⟨s, hrun, hqueried⟩ := exec_comesBack askedPeer_ne namedPeer_ne namedPeer_ne_askedPeer
    ⟨realSha256 []⟩
  rw [← asks_once_iff_unrepeated _ hrun]
  intro hall
  have honce := hall.last hrun [] s (fun l hl => (List.not_mem_nil hl).elim) rfl
  rw [hqueried] at honce
  simp at honce

end Tewta
