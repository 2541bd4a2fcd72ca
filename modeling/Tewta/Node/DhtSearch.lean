import Tewta.Handshake.Machine
import Tewta.Lib.SortDedup
import Tewta.Lib.Transition
import Tewta.Node.OnPacket
import Tewta.Peers.Distance

/-!
# The loop of a lookup

`dht_lookup` keeps a list of providers sorted by their distance to the key, the nearest
at its end, and has three lookups at a time under way, each on one provider.  When one
completes, the peers that it suggests are merged into the list, and the loop goes on, until
a lookup finds values or there is nothing left to ask.

`DhtSearch` has the variables of the loop.  What a lookup under way is does not matter
here; `start` makes one from a provider.
-/

namespace Tewta

open Transition

def kademliaAlpha : ℕ := 3

inductive SingleProviderLookupError
  | failedToConnect
  | requestIdMismatch
  | ioError (e : ExternalError)
  | protocolError (e : ExternalError)
  | handshakeError (e : HandshakeError)
  deriving DecidableEq

inductive LookupStatus
  | notStarted
  | running
  | returned (values : Option (List DhtValue))
  | panicked

/-- The variables of `dht_lookup`.  `alreadyQueried` is a set in the sources; the list has
every pair that was inserted, the latest first, and so every call of
`dht_lookup_on_single_provider`. -/
structure DhtSearch (α : Type) where
  key : KeyID
  providers : List (PeerID × String)
  alreadyQueried : List (PeerID × String)
  lookups : List α
  shouldComplete : Bool
  status : LookupStatus

namespace DhtSearch

variable {α : Type}

def init (key : KeyID) : DhtSearch α where
  key := key
  providers := []
  alreadyQueried := []
  lookups := []
  shouldComplete := false
  status := .notStarted

/-- Up to the loop. -/
def begin (s : DhtSearch α) (pool : ConnectionPool) : DhtSearch α :=
  { s with
    providers := (sortByDistance s.key pool.peersWithAddrs).reverse
    status := .running }

/-- The inner loop, with at most `n` lookups to start. -/
def fillWith (start : PeerID × String → α) : ℕ → DhtSearch α → DhtSearch α
  | 0, s => s
  | n + 1, s =>
    if s.shouldComplete then s
    else
      match s.providers.getLast? with
      | some provider =>
        fillWith start n
          { s with
            providers := s.providers.dropLast
            shouldComplete := decide (provider.1 = s.key)
            alreadyQueried := provider :: s.alreadyQueried
            lookups := s.lookups ++ [start provider] }
      | none => if s.lookups.isEmpty then { s with status := .returned none } else s

/-- The loop up to the wait. -/
def fill (start : PeerID × String → α) (s : DhtSearch α) : DhtSearch α :=
  let s' := fillWith start (kademliaAlpha - s.lookups.length) s
  if s'.lookups.isEmpty && s'.shouldComplete then { s' with status := .returned none } else s'

/-- The providers once some more are known. -/
def moreProviders (s : DhtSearch α) (peers : List (PeerID × String)) : List (PeerID × String) :=
  ((sortByDistance s.key ((s.providers ++ peers).filter (· ∉ s.alreadyQueried))).destutter
    (· ≠ ·)).reverse

/-- A lookup has completed: the loop up to its end. -/
def resume (s : DhtSearch α) (i : ℕ) :
    Except SingleProviderLookupError DhtLookupResult → DhtSearch α
  | .ok (.found values) => { s with lookups := [], status := .returned (some values) }
  | .ok (.notFound peers) =>
    { s with lookups := s.lookups.eraseIdx i, providers := s.moreProviders peers }
  | .error _ => { s with lookups := s.lookups.eraseIdx i }

/-- The loop goes on, unless `dht_lookup` has returned. -/
def goOn (start : PeerID × String → α) (s : DhtSearch α) : DhtSearch α :=
  match s.status with
  | .running => s.fill start
  | _ => s

end DhtSearch

/-! ### Runs -/

/-- `dht_lookup` with what it has seen: the providers it has learnt of, and the lookups that
have completed. -/
structure SearchRun where
  search : DhtSearch (PeerID × String)
  learnt : List (PeerID × String)
  answered : List ((PeerID × String) × Except SingleProviderLookupError DhtLookupResult)

inductive SearchLabel
  /-- `dht_lookup` is called with a pool -/
  | begin (pool : ConnectionPool)
  /-- one of its lookups completes -/
  | complete (i : ℕ) (result : Except SingleProviderLookupError DhtLookupResult)

/-- The peers that a result suggests. -/
def suggestions : Except SingleProviderLookupError DhtLookupResult → List (PeerID × String)
  | .ok (.notFound peers) => peers
  | _ => []

namespace SearchRun

def init (key : KeyID) : SearchRun := ⟨.init key, [], []⟩

/-- A step, up to the beginning or the end of the loop. -/
def enter (s : SearchRun) : SearchLabel → Option SearchRun
  | .begin pool =>
    match s.search.status with
    | .notStarted => some ⟨s.search.begin pool, pool.peersWithAddrs, s.answered⟩
    | _ => none
  | .complete i result =>
    match s.search.status, s.search.lookups[i]? with
    | .running, some provider =>
      some ⟨s.search.resume i result, s.learnt ++ suggestions result,
        s.answered ++ [(provider, result)]⟩
    | _, _ => none

/-- One step of `dht_lookup`, up to its next wait. -/
def step (s : SearchRun) (l : SearchLabel) : Option SearchRun :=
  (s.enter l).map fun s => { s with search := s.search.goOn id }

end SearchRun

/-! ### The order of the providers -/

/-- The comparison of the sorts: is one peer no farther from the key than another? -/
def noFarther (key : KeyID) (p q : PeerID × String) : Bool :=
  (compare (p.1.distance key).toList (q.1.distance key).toList).isLE

theorem noFarther_iff {key : KeyID} {p q : PeerID × String} :
    noFarther key p q = true ↔ p.1.distanceNat key ≤ q.1.distanceNat key := by
  rw [noFarther, PeerID.compare_distance]
  exact Nat.isLE_compare

theorem noFarther_trans (key : KeyID) (p q r : PeerID × String) (h : noFarther key p q = true)
    (h' : noFarther key q r = true) : noFarther key p r = true :=
  noFarther_iff.mpr ((noFarther_iff.mp h).trans (noFarther_iff.mp h'))

theorem noFarther_total (key : KeyID) (p q : PeerID × String) :
    (noFarther key p q || noFarther key q p) = true := by
  rw [Bool.or_eq_true, noFarther_iff, noFarther_iff]
  exact le_total _ _

theorem eq_iff_noFarther (key : KeyID) (p q : PeerID × String) :
    p.1 = q.1 ↔ noFarther key p q = true ∧ noFarther key q p = true := by
  rw [noFarther_iff, noFarther_iff, ← le_antisymm_iff]
  exact ⟨fun h => by rw [h], PeerID.distanceNat_inj⟩

theorem mem_sortByDistance {key : KeyID} {peers : List (PeerID × String)} {p : PeerID × String} :
    p ∈ sortByDistance key peers ↔ p ∈ peers :=
  (List.mergeSort_perm _ _).mem_iff

theorem pairwise_sortByDistance (key : KeyID) (peers : List (PeerID × String)) :
    (sortByDistance key peers).Pairwise fun p q => noFarther key p q = true :=
  List.pairwise_mergeSort (noFarther_trans key) (noFarther_total key) peers

namespace DhtSearch

variable {α : Type} {s : DhtSearch α}

/-- What is kept of the old providers and the new ones: those that were not queried. -/
theorem mem_moreProviders {peers : List (PeerID × String)} {p : PeerID × String} :
    p ∈ s.moreProviders peers ↔ (p ∈ s.providers ∨ p ∈ peers) ∧ p ∉ s.alreadyQueried := by
  rw [moreProviders, List.mem_reverse, SortDedup.mem_destutter, mem_sortByDistance,
    List.mem_filter, List.mem_append, decide_eq_true_iff]

/-- The farthest first. -/
def Sorted (s : DhtSearch α) : Prop :=
  s.providers.Pairwise fun p q => noFarther s.key q p = true

theorem pairwise_moreProviders (s : DhtSearch α) (peers : List (PeerID × String)) :
    (s.moreProviders peers).Pairwise fun p q => noFarther s.key q p = true := by
  rw [moreProviders, List.pairwise_reverse]
  exact (pairwise_sortByDistance _ _).sublist (List.destutter_sublist _ _)

/-- **The last one is the nearest.** -/
theorem Sorted.noFarther_of_getLast? (h : s.Sorted) {provider p : PeerID × String}
    (hlast : s.providers.getLast? = some provider) (hp : p ∈ s.providers) :
    noFarther s.key provider p = true := by
  obtain ⟨l, hl⟩ := List.getLast?_eq_some_iff.mp hlast
  rw [Sorted, hl, List.pairwise_append] at h
  rw [hl, List.mem_append] at hp
  rcases hp with hp | hp
  · exact h.2.2 p hp provider (List.mem_singleton_self _)
  · rw [List.mem_singleton.mp hp, noFarther_iff]

/-! ### The inner loop -/

/-- A provider is taken, and a lookup on it started. -/
def take (start : PeerID × String → α) (s : DhtSearch α) (provider : PeerID × String) :
    DhtSearch α :=
  { s with
    providers := s.providers.dropLast
    shouldComplete := decide (provider.1 = s.key)
    alreadyQueried := provider :: s.alreadyQueried
    lookups := s.lookups ++ [start provider] }

/-- One iteration of the inner loop that starts a lookup. -/
def Takes (start : PeerID × String → α) (s t : DhtSearch α) : Prop :=
  ∃ provider, s.shouldComplete = false ∧ s.providers.getLast? = some provider ∧
    t = s.take start provider

open Relation (ReflTransGen)

/-- **What the inner loop does**: it starts some lookups, and returns if it runs out of
providers without any. -/
theorem fillWith_cases (start : PeerID × String → α) (n : ℕ) (s : DhtSearch α) :
    ∃ t, ReflTransGen (Takes start) s t ∧
      ((fillWith start n s = t ∧
          (t.shouldComplete = true ∨ t.lookups ≠ [] ∨ n = 0 ∧ t = s)) ∨
        fillWith start n s = { t with status := .returned none } ∧
          t.shouldComplete = false ∧ t.providers = [] ∧ t.lookups = []) := by
  induction n generalizing s with
  | zero => exact ⟨s, .refl, Or.inl ⟨rfl, Or.inr (Or.inr ⟨rfl, rfl⟩)⟩⟩
  | succ n ih =>
    rw [fillWith]
    split
    · rename_i hcomplete
      exact ⟨s, .refl, Or.inl ⟨rfl, Or.inl hcomplete⟩⟩
    · rename_i hcomplete
      rw [Bool.not_eq_true] at hcomplete
      split
      · rename_i provider hlast
        obtain ⟨t, htakes, hcase⟩ := ih (s.take start provider)
        refine ⟨t, htakes.head ⟨provider, hcomplete, hlast, rfl⟩, ?_⟩
        rcases hcase with ⟨heq, hstop⟩ | hnone
        · refine Or.inl ⟨heq, ?_⟩
          rcases hstop with h | h | ⟨-, rfl⟩
          · exact Or.inl h
          · exact Or.inr (Or.inl h)
          · exact Or.inr (Or.inl (List.append_ne_nil_of_right_ne_nil _ (List.cons_ne_nil _ _)))
        · exact Or.inr hnone
      · rename_i hlast
        split
        · rename_i hempty
          exact ⟨s, .refl, Or.inr ⟨rfl, hcomplete, List.getLast?_eq_none_iff.mp hlast,
            List.isEmpty_iff.mp hempty⟩⟩
        · rename_i hempty
          refine ⟨s, .refl, Or.inl ⟨rfl, Or.inr (Or.inl fun hnil => hempty ?_)⟩⟩
          rw [hnil]
          rfl

/-- **What the loop does up to the wait**: it has started some lookups and has some to wait
for, or it has none and returns. -/
theorem fill_cases (start : PeerID × String → α) (s : DhtSearch α) :
    ∃ t, ReflTransGen (Takes start) s t ∧
      ((s.fill start = t ∧ t.lookups ≠ []) ∨
        s.fill start = { t with status := .returned none } ∧ t.lookups = [] ∧
          (t.shouldComplete = true ∨ t.providers = [])) := by
  obtain ⟨t, htakes, hcase⟩ := fillWith_cases start (kademliaAlpha - s.lookups.length) s
  refine ⟨t, htakes, ?_⟩
  rw [fill]
  rcases hcase with ⟨heq, hstop⟩ | ⟨heq, hcomplete, hproviders, hlookups⟩
  · rw [heq]
    by_cases hlookups : t.lookups = []
    · have hcomplete : t.shouldComplete = true := by
        rcases hstop with h | h | ⟨hzero, rfl⟩
        · exact h
        · exact absurd hlookups h
        · rw [hlookups] at hzero
          cases hzero
      refine Or.inr ⟨?_, hlookups, Or.inl hcomplete⟩
      rw [hlookups, hcomplete]
      rfl
    · refine Or.inl ⟨if_neg fun h => hlookups ?_, hlookups⟩
      rw [Bool.and_eq_true, List.isEmpty_iff] at h
      exact h.1
  · refine Or.inr ⟨?_, hlookups, Or.inr hproviders⟩
    rw [heq]
    exact if_neg (by rw [hcomplete]; simp)

theorem lookups_of_takes {start : PeerID × String → α} {s t : DhtSearch α}
    (h : ReflTransGen (Takes start) s t) : ∃ new : List (PeerID × String),
      t.lookups = s.lookups ++ new.map start ∧ t.status = s.status := by
  induction h with
  | refl => exact ⟨[], by simp, rfl⟩
  | tail _ htakes ih =>
    obtain ⟨new, hnew, hstatus⟩ := ih
    obtain ⟨provider, -, -, rfl⟩ := htakes
    refine ⟨new ++ [provider], ?_, hstatus⟩
    rw [List.map_append, ← List.append_assoc, ← hnew]
    rfl

theorem of_takes {P : DhtSearch α → Prop} {start : PeerID × String → α} {s t : DhtSearch α}
    (htake : ∀ s provider, P s → s.shouldComplete = false →
      s.providers.getLast? = some provider → P (s.take start provider))
    (h : ReflTransGen (Takes start) s t) (hs : P s) : P t := by
  induction h with
  | refl => exact hs
  | tail _ htakes ih =>
    obtain ⟨provider, hcomplete, hlast, rfl⟩ := htakes
    exact htake _ provider ih hcomplete hlast

end DhtSearch

end Tewta
