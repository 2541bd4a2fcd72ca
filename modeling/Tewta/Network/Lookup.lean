import Tewta.Network

/-!
# Lookups in a network

A peer looks a key up, that of another peer which has values for it.  Of the other members
all but a few answer, each out of the pool and the store that it has at that moment, and the
pools lead to the key.

Of the pairs learnt by then take one that responds and is nearest to the key.  If it is not
the peer of the key its answer was a nearer one, which was learnt: so a lookup that has asked
everybody it knows has asked the peer of the key (`dht_lookup_finds_values`).
-/

namespace Tewta

open Transition DhtSearch

namespace Network

variable (net : Network) (failing : Finset PeerID) (key : KeyID) (held : PeerID → List DhtValue)

/-- The pool leads to the key at the beginning, and the lookups of the members are answered,
except that those on failing peers may have errors. -/
def Answers (self : PeerID) (s : SearchRun) : SearchLabel → Prop
  | .begin pool => pool.ourPeerId = self ∧ net.LeadsTo failing key pool
  | .complete i result => ∀ provider, s.search.lookups[i]? = some provider →
    net.MayResult failing key held provider.1 result

/-- All pairs are those of members, what was answered can be answered, and was learnt. -/
structure Truthful (s : SearchRun) : Prop where
  bounded : SearchRun.Bounded net.pairs s
  lookups : ∀ p ∈ s.search.lookups, p ∈ net.pairs
  answered : ∀ p result, (p, result) ∈ s.answered →
    (∀ q ∈ suggestions result, q ∈ s.learnt) ∧ net.MayResult failing key held p.1 result
  unbegun : s.search.status = .notStarted → s.answered = []
  begun : s.search.status ≠ .notStarted → ∃ p ∈ s.learnt, p.1 ∉ failing
  returned : ∀ values, s.search.status = .returned (some values) →
    ∃ n ∈ net.members, values ≠ [] ∧ values <+: held n

variable {net failing key held} {self : PeerID} {s s' : SearchRun} {l : SearchLabel}

theorem mem_lookups_goOn {u : DhtSearch (PeerID × String)} {U : Finset (PeerID × String)}
    (hproviders : ∀ p ∈ u.providers, p ∈ U) (hlookups : ∀ p ∈ u.lookups, p ∈ U) :
    ∀ p ∈ (u.goOn id).lookups, p ∈ U := by
  rw [goOn]
  split
  · obtain ⟨t, htakes, hcase⟩ := fill_cases id u
    have ht : (∀ p ∈ t.providers, p ∈ U) ∧ ∀ p ∈ t.lookups, p ∈ U := by
      refine of_takes (P := fun t => (∀ p ∈ t.providers, p ∈ U) ∧ ∀ p ∈ t.lookups, p ∈ U) ?_ htakes
        ⟨hproviders, hlookups⟩
      rintro t provider ⟨hproviders, hlookups⟩ - hlast
      refine ⟨fun p hp => ?_, fun p hp => ?_⟩
      · exact hproviders p (List.mem_of_mem_dropLast hp)
      · rcases List.mem_append.mp hp with hp | hp
        · exact hlookups p hp
        · rw [List.mem_singleton.mp hp]
          exact hproviders _ (List.mem_of_getLast? hlast)
    rcases hcase with ⟨heq, -⟩ | ⟨heq, -⟩
    · rw [heq]
      exact ht.2
    · rw [heq]
      exact ht.2
  · exact hlookups

theorem returned_of_goOn {u : DhtSearch (PeerID × String)} {values : List DhtValue}
    (h : (u.goOn id).status = .returned (some values)) : u.status = .returned (some values) := by
  rw [goOn] at h
  split at h
  · obtain ⟨t, htakes, ⟨heq, -⟩ | ⟨heq, -⟩⟩ := fill_cases id u
    · obtain ⟨-, -, hstatus⟩ := lookups_of_takes htakes
      rw [heq, hstatus] at h
      exact h
    · rw [heq] at h
      cases h
  · exact h

theorem truthful_init (key : KeyID) : net.Truthful failing key held (.init key) := by
  refine ⟨⟨Nat.zero_le _, fun p hp => ?_⟩, fun p hp => ?_, fun p result hp => ?_,
    fun _ => rfl, fun hs => absurd rfl hs, fun values hs => ?_⟩
  · cases hp
  · cases hp
  · cases hp
  · cases hs

theorem Truthful.step (hfailing : failing.card < 32) (hself : self ≠ key)
    (inv : net.Truthful failing key held s) (hl : net.Answers failing key held self s l)
    (h : s.step l = some s') : net.Truthful failing key held s' := by
  have hbegun := SearchRun.status_of_step h
  obtain ⟨s₀, henter, rfl⟩ := Option.map_eq_some_iff.mp h
  cases l with
  | begin pool =>
    rw [SearchRun.enter] at henter
    split at henter
    · rename_i hstatus
      cases henter
      obtain ⟨rfl, hpool⟩ := hl
      have hproviders : ∀ p ∈ (s.search.begin pool).providers, p ∈ net.pairs := by
        intro p hp
        exact hpool.pairs p (mem_sortByDistance.mp (List.mem_reverse.mp hp))
      have hbounded := SearchRun.bounded_goOn (u := s.search.begin pool) inv.bounded.lookups
        hproviders
      refine ⟨⟨hbounded.1, hbounded.2⟩, mem_lookups_goOn hproviders inv.lookups,
        fun p result hp => ?_, fun hs => absurd hs hbegun, fun _ => ?_, fun values hs => ?_⟩
      · rw [show s.answered = [] from inv.unbegun hstatus] at hp
        cases hp
      · obtain ⟨p, hp, hresponds, -⟩ := hpool.exists_responding hself
        exact ⟨p, hp, hresponds⟩
      · cases returned_of_goOn hs
    · cases henter
  | complete i result =>
    rw [SearchRun.enter] at henter
    split at henter
    · rename_i provider hstatus hi
      cases henter
      have hprovider := inv.lookups provider (List.mem_of_getElem? hi)
      have hmay := hl provider hi
      obtain ⟨hsuggested, hvalues⟩ := hmay.sound hfailing
      have hkept : ∀ p ∈ s.search.lookups.eraseIdx i, p ∈ net.pairs := fun p hp =>
        inv.lookups p (List.mem_of_mem_eraseIdx hp)
      have hbegan : s.search.status ≠ .notStarted := by
        rw [hstatus]
        rintro ⟨⟩
      have hproviders : ∀ p ∈ (s.search.resume i result).providers, p ∈ net.pairs := by
        rcases result with e | values | peers
        · exact inv.bounded.providers
        · exact inv.bounded.providers
        · intro p hp
          rcases (mem_moreProviders.mp hp).1 with hp | hp
          · exact inv.bounded.providers p hp
          · exact hsuggested p hp
      have hlookups : (s.search.resume i result).lookups.length ≤ kademliaAlpha ∧
          ∀ p ∈ (s.search.resume i result).lookups, p ∈ net.pairs := by
        have hlen := List.length_eraseIdx_le s.search.lookups i
        rcases result with e | values | peers
        · exact ⟨hlen.trans inv.bounded.lookups, hkept⟩
        · exact ⟨Nat.zero_le _, fun p hp => by cases hp⟩
        · exact ⟨hlen.trans inv.bounded.lookups, hkept⟩
      have hbounded := SearchRun.bounded_goOn hlookups.1 hproviders
      refine ⟨⟨hbounded.1, hbounded.2⟩, mem_lookups_goOn hproviders hlookups.2,
        fun p res hp => ?_, fun hs => absurd hs hbegun, fun _ => ?_, fun values hs => ?_⟩
      · rcases List.mem_append.mp hp with hp | hp
        · obtain ⟨hlearnt, hanswered⟩ := inv.answered p res hp
          exact ⟨fun q hq => List.mem_append_left _ (hlearnt q hq), hanswered⟩
        · cases List.mem_singleton.mp hp
          exact ⟨fun q hq => List.mem_append_right _ hq, hmay⟩
      · obtain ⟨p, hp, hresponds⟩ := inv.begun hbegan
        exact ⟨p, List.mem_append_left _ hp, hresponds⟩
      · have hreturned := returned_of_goOn hs
        rcases result with e | values' | peers
        · cases hstatus.symm.trans hreturned
        · cases hreturned
          exact ⟨provider.1, mem_members_of_mem_pairs hprovider, hvalues _ rfl⟩
        · cases hstatus.symm.trans hreturned
    · cases henter

/-- **Of the pairs that were learnt one leads on**, until the peer of the key is asked. -/
theorem Truthful.ne_returned_none (hfailing : failing.card < 32) (hkey : key ∉ failing)
    (inv : net.Truthful failing key held s) {labels : List SearchLabel}
    (h : exec SearchRun.step (.init key) labels = some s) :
    s.search.status ≠ .returned none := by
  intro hnone
  obtain ⟨hunfound, hwhy⟩ : (∀ p values, (p, .ok (.found values)) ∉ s.answered) ∧
      ((∃ addr result, (key, addr) ∈ s.learnt ∧ ((key, addr), result) ∈ s.answered) ∨
        ∀ p ∈ s.learnt, ∃ result, (p, result) ∈ s.answered) := by
    rcases SearchRun.accounted_of_exec h with ⟨values, hs⟩ | account
    · cases hnone.symm.trans hs
    · exact account.reason hnone
  have hanswer : ∀ p result, (p, result) ∈ s.answered → p.1 ∉ failing →
      ∃ q ∈ s.learnt, q.1 ∉ failing ∧ q.1.distanceNat key < p.1.distanceNat key := by
    intro p result hp hresponds
    obtain ⟨hlearnt, hmay⟩ := inv.answered p result hp
    obtain ⟨r, rfl, hr⟩ := hmay.resolve_left fun h => hresponds h.2
    rcases hr.cases hfailing with ⟨values, rfl, -⟩ | ⟨peers, rfl, -, q, hq, hq'⟩
    · exact absurd hp (hunfound p values)
    · exact ⟨q, hlearnt q hq, hq'⟩
  rcases hwhy with ⟨addr, result, -, hmem⟩ | hall
  · -- nobody is nearer to the key than its own peer
    obtain ⟨q, -, -, hlt⟩ := hanswer (key, addr) result hmem hkey
    rw [PeerID.distanceNat_self] at hlt
    exact Nat.not_lt_zero _ hlt
  · have hne : s.search.status ≠ .notStarted := by
      rw [hnone]
      rintro ⟨⟩
    obtain ⟨p₀, hp₀, hresponds₀⟩ := inv.begun hne
    obtain ⟨p, hp, hnearest⟩ := (s.learnt.toFinset.filter (·.1 ∉ failing)).exists_min_image
      (·.1.distanceNat key) ⟨p₀, by simp [hp₀, hresponds₀]⟩
    rw [Finset.mem_filter, List.mem_toFinset] at hp
    obtain ⟨result, hresult⟩ := hall p hp.1
    obtain ⟨q, hq, hresponds, hlt⟩ := hanswer p result hresult hp.2
    exact Nat.not_lt.mpr (hnearest q (by simp [hq, hresponds])) hlt

end Network

/-- **Lookups find what the peer of the key has.**  A peer looks up the key of another one.  That
one and all but thirty-one of the others answer, out of the pools and stores that they have when
they are asked.  Each of these pools, and the pool of the peer that looks the key up, lists
members at their own addresses, and has one that responds in the bucket of the key.  Then there
is no endless run, a lookup that is not over waits for somebody, and when it is over it has
returned values, the first ones that some member had. -/
theorem dht_lookup_finds_values (net : Network) (failing : Finset PeerID) (key : KeyID)
    (held : PeerID → List DhtValue) (self : PeerID) (hfailing : failing.card < 32)
    (hkey : key ∉ failing) (hself : self ≠ key) :
    (∀ (run : ℕ → SearchRun) (labels : ℕ → SearchLabel), run 0 = .init key →
      (∀ n, net.Answers failing key held self (run n) (labels n)) →
      ∃ n, (run n).step (labels n) ≠ some (run (n + 1))) ∧
    ∀ labels s, exec SearchRun.step (.init key) labels = some s →
      Meets SearchRun.step (net.Answers failing key held self) (.init key) labels →
      (s.search.status = .running → s.search.lookups ≠ []) ∧ s.search.status ≠ .returned none ∧
        ∀ values, s.search.status = .returned (some values) →
          ∃ n ∈ net.members, values ≠ [] ∧ values <+: held n := by
  refine ⟨fun run labels h₀ hanswers => ?_, fun labels s h hmeets => ?_⟩
  · by_contra hall
    have hstep : ∀ n, (run n).step (labels n) = some (run (n + 1)) := by
      intro n
      by_contra hn
      exact hall ⟨n, hn⟩
    obtain ⟨n, hn⟩ := SearchRun.exists_stop net.pairs run labels h₀ fun n i result hl p hp => by
      have h := hstep n
      have hn := hanswers n
      rw [hl] at h hn
      obtain ⟨s₀, henter, -⟩ := Option.map_eq_some_iff.mp h
      rw [SearchRun.enter] at henter
      split at henter
      · rename_i provider _ hi
        exact ((hn provider hi).sound hfailing).1 p hp
      · cases henter
    exact hn (hstep n)
  · have inv : net.Truthful failing key held s :=
      invariant_of_meets (fun _ _ _ inv hl hstep => inv.step hfailing hself hl hstep) hmeets h
        (Network.truthful_init key)
    exact ⟨SearchRun.lookups_ne_nil h, inv.ne_returned_none hfailing hkey h, inv.returned⟩

/-! ### Two hops -/

/-- A peer is connected, which suggests the peer of the key, which has values. -/
def twoHops (pool : ConnectionPool) (key : KeyID) (values : List DhtValue) : List SearchLabel :=
  [.begin pool, .complete 0 (.ok (.notFound [(key, "remote-1")])),
    .complete 0 (.ok (.found values))]

/-- The peers of the two hops, and the one that looks the key up. -/
def hopping : Network where
  members := {.ofByte 0xC0, .ofByte 0xC1}
  addr n := if n = .ofByte 0xC0 then "local-1" else "remote-1"

def hoppingPool : ConnectionPool :=
  (ConnectionPool.new (.ofByte 0)).insert (.ofByte 0xC0)
    ⟨hopping.addr (.ofByte 0xC0), 0, none, 0⟩

def hoppingValue : DhtValue := ⟨none, ⟨⟨0, []⟩, [], [], []⟩⟩

theorem ofByte_C0_ne : PeerID.ofByte 0xC0 ≠ .ofByte 0xC1 := by decide

theorem isAnswer_hop :
    hopping.IsAnswer ∅ (.ofByte 0xC1) (fun _ => [hoppingValue]) (.ofByte 0xC0)
      (.notFound [(.ofByte 0xC1, "remote-1")]) := by
  refine ⟨(ConnectionPool.new (.ofByte 0xC0)).insert (.ofByte 0xC1)
    ⟨hopping.addr (.ofByte 0xC1), 0, none, 0⟩, [], default, 0, rfl,
    Network.leadsTo_insert_new (by decide) (by simp) fun b hb => hb,
    List.nil_prefix, fun h => absurd h ofByte_C0_ne, ?_⟩
  rw [responseTo_lookup, nearestPeers, ConnectionPool.peersWithAddrs_insert_new,
    if_pos (show DhtStore.valuesSet [] (.ofByte 0xC1) = [] from rfl)]
  simp [sortByDistance, hopping, ofByte_C0_ne.symm]
  decide

theorem isAnswer_owner :
    hopping.IsAnswer ∅ (.ofByte 0xC1) (fun _ => [hoppingValue]) (.ofByte 0xC1)
      (.found [hoppingValue]) := by
  have hvalues : DhtStore.valuesSet [.set (.ofByte 0xC1) hoppingValue] (.ofByte 0xC1) =
      [hoppingValue] := rfl
  refine ⟨ConnectionPool.new (.ofByte 0xC1), [.set (.ofByte 0xC1) hoppingValue], default, 0, rfl,
    ⟨fun p hp => ?_, fun b hb => ?_⟩, ?_, fun _ => ?_, ?_⟩
  · simp [ConnectionPool.new, ConnectionPool.peersWithAddrs] at hp
  · rw [show (ConnectionPool.new (.ofByte 0xC1)).ourPeerId = .ofByte 0xC1 from rfl,
      PeerID.bucket_self] at hb
    cases hb
  · rw [hvalues]
  · rw [hvalues]
    simp
  · rw [responseTo_lookup, hvalues]
    rfl

theorem steps_hop {q key : PeerID} (hq : q ≠ key) (addr : String) (values : List DhtValue) :
    ∃ s t : SearchRun, (SearchRun.mk
        { key := key
          providers := []
          alreadyQueried := [(q, addr)]
          lookups := [(q, addr)]
          shouldComplete := false
          status := .running } [(q, addr)] []).step
          (.complete 0 (.ok (.notFound [(key, "remote-1")]))) = some s ∧
      s.search.lookups = [(key, "remote-1")] ∧
      s.step (.complete 0 (.ok (.found values))) = some t ∧
      t.search.status = .returned (some values) := by
  let u : DhtSearch (PeerID × String) :=
    { key := key
      providers := []
      alreadyQueried := [(q, addr)]
      lookups := [(q, addr)]
      shouldComplete := false
      status := .running }
  have hmore : u.moreProviders [(key, "remote-1")] = [(key, "remote-1")] := by
    have hfilter : (u.providers ++ [(key, "remote-1")]).filter (· ∉ u.alreadyQueried) =
        [(key, "remote-1")] := by
      simp [u, Ne.symm hq]
    rw [DhtSearch.moreProviders, hfilter]
    simp [sortByDistance]
  simp only [SearchRun.step, SearchRun.enter, resume]
  show ∃ s t : SearchRun, Option.map _ (some (SearchRun.mk { u with
    lookups := [], providers := u.moreProviders [(key, "remote-1")] } _ _)) = _ ∧ _
  rw [hmore]
  simp [DhtSearch.goOn, DhtSearch.fill, DhtSearch.fillWith, kademliaAlpha, u, suggestions]

/-- The peer of the key is found, and its value. -/
theorem dht_lookup_finds_values_twoHops : ∃ s,
    exec SearchRun.step (.init (.ofByte 0xC1))
        (twoHops hoppingPool (.ofByte 0xC1) [hoppingValue]) = some s ∧
      s.search.status ≠ .returned none := by
  obtain ⟨t, u, ht, hlookups, hu, -⟩ := steps_hop ofByte_C0_ne (hopping.addr (.ofByte 0xC0))
    [hoppingValue]
  have hbegin : (SearchRun.init (.ofByte 0xC1)).step (.begin hoppingPool) = _ :=
    step_begin_new ofByte_C0_ne (.ofByte 0) ⟨hopping.addr (.ofByte 0xC0), 0, none, 0⟩
  have hrun : exec SearchRun.step (.init (.ofByte 0xC1))
      (twoHops hoppingPool (.ofByte 0xC1) [hoppingValue]) = some u :=
    exec_cons_eq_some.mpr ⟨_, hbegin, exec_cons_eq_some.mpr ⟨t, ht, (exec_singleton _ _).trans hu⟩⟩
  refine ⟨u, hrun, ((dht_lookup_finds_values hopping ∅ (.ofByte 0xC1) (fun _ => [hoppingValue])
    (.ofByte 0) (by simp) (by simp) (by decide)).2 _ u hrun ?_).2.1⟩
  rw [twoHops, meets_cons hbegin, meets_cons ht, meets_cons hu]
  refine ⟨⟨rfl, Network.leadsTo_insert_new (by decide) (by simp) (by decide)⟩,
    fun provider hi => ?_, fun provider hi => ?_, trivial⟩
  · cases hi
    exact Or.inr ⟨_, rfl, isAnswer_hop⟩
  · rw [hlookups] at hi
    cases hi
    exact Or.inr ⟨_, rfl, isAnswer_owner⟩

end Tewta
