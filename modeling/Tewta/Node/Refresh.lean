import Tewta.Lib.Transition
import Tewta.Node.Buckets
import Tewta.Node.DiscoverPeers

/-!
# Refreshing the buckets

`refresh_buckets` goes through the buckets by level, and starts a discovery for each that has
not its eight peers.  It stops at the first bucket that is empty, since there is no point in
filling lower buckets then.  But it stops at once: the other buckets of the same level are left
out as well, and `refresh_covers_iff` says that this is the only case in which a bucket is missing.

In a node, a call looks at one bucket after the other while peers come and go and the discoveries
run that it has spawned.  `RefreshState` has all of them; and a call during which the pool stays as
it is spawns what `refreshBuckets` lists (`spawned_of_done`).
-/

namespace Tewta

open PeerID Transition

/-- The loops of `ConnectionPool::refresh_buckets` from a bucket on, with the buckets for which a
discovery is started. -/
def ConnectionPool.refreshFrom (pool : ConnectionPool) : List (ℕ × ℕ) → List (ℕ × ℕ)
  | [] => []
  | b :: buckets =>
    let peers := pool.peersOnBucket b.1 b.2
    let started := if peers.length < kademliaBucketSize then [b] else []
    if peers.isEmpty then started else started ++ pool.refreshFrom buckets

/-- `ConnectionPool::refresh_buckets`, on a pool that stays as it is. -/
def ConnectionPool.refreshBuckets (pool : ConnectionPool) : List (ℕ × ℕ) :=
  pool.refreshFrom (bucketsBelow 128)

/-- The order of `refresh_buckets`. -/
def Earlier (b b' : ℕ × ℕ) : Prop := b.1 < b'.1 ∨ b.1 = b'.1 ∧ b.2 < b'.2

theorem Earlier.irrefl (b : ℕ × ℕ) : ¬ Earlier b b := by
  rw [Earlier]
  omega

theorem Earlier.asymm {b b' : ℕ × ℕ} (h : Earlier b b') : ¬ Earlier b' b := by
  rw [Earlier] at h ⊢
  omega

theorem pairwise_bucketsBelow (bucketLevel : ℕ) : (bucketsBelow bucketLevel).Pairwise Earlier := by
  refine List.pairwise_flatMap.mpr ⟨fun l _ => ?_, ?_⟩
  · exact List.pairwise_map.mpr (List.pairwise_lt_range.imp fun hlt => Or.inr ⟨rfl, hlt⟩)
  · refine List.pairwise_lt_range.imp fun hlt b hb b' hb' => Or.inl ?_
    obtain ⟨k, -, rfl⟩ := List.mem_map.mp hb
    obtain ⟨k', -, rfl⟩ := List.mem_map.mp hb'
    exact hlt

namespace ConnectionPool

variable {pool : ConnectionPool}

theorem refreshFrom_cons (b : ℕ × ℕ) (buckets : List (ℕ × ℕ)) :
    pool.refreshFrom (b :: buckets) =
      (if (pool.peersOnBucket b.1 b.2).length < kademliaBucketSize then [b] else []) ++
        pool.refreshFrom (if (pool.peersOnBucket b.1 b.2).length = 0 then [] else buckets) := by
  rw [refreshFrom]
  by_cases hnil : pool.peersOnBucket b.1 b.2 = []
  · rw [hnil]
    rfl
  · rw [if_neg (mt List.isEmpty_iff.mp hnil), if_neg (mt List.length_eq_zero_iff.mp hnil)]

/-- **A discovery is started** for a bucket with too few peers before which none is empty. -/
theorem mem_refreshFrom {buckets : List (ℕ × ℕ)} (hsorted : buckets.Pairwise Earlier) {b : ℕ × ℕ} :
    b ∈ pool.refreshFrom buckets ↔ b ∈ buckets ∧
      (pool.peersOnBucket b.1 b.2).length < kademliaBucketSize ∧
      ∀ b' ∈ buckets, Earlier b' b → pool.peersOnBucket b'.1 b'.2 ≠ [] := by
  induction buckets with
  | nil => simp [refreshFrom]
  | cons a buckets ih =>
    obtain ⟨hhead, htail⟩ := List.pairwise_cons.mp hsorted
    have hstarted : ∀ b, b ∈ (if (pool.peersOnBucket a.1 a.2).length < kademliaBucketSize
        then [a] else []) ↔ b = a ∧ (pool.peersOnBucket a.1 a.2).length < kademliaBucketSize := by
      intro b
      split
      · rename_i hlt
        rw [List.mem_singleton, and_iff_left hlt]
      · rename_i hge
        exact iff_of_false List.not_mem_nil fun h => hge h.2
    by_cases hba : b = a
    · -- no bucket is before the first one
      subst hba
      have hfirst : ∀ b' ∈ b :: buckets, Earlier b' b → pool.peersOnBucket b'.1 b'.2 ≠ [] := by
        intro b' hb' hlt
        rcases List.mem_cons.mp hb' with rfl | hb'
        · exact absurd hlt (Earlier.irrefl b')
        · exact absurd hlt (hhead b' hb').asymm
      have hnot : b ∉ pool.refreshFrom buckets := by
        intro hmem
        exact Earlier.irrefl b (hhead b ((ih htail).mp hmem).1)
      rw [and_iff_right List.mem_cons_self, and_iff_left hfirst, refreshFrom]
      split
      · rw [hstarted, and_iff_right rfl]
      · rw [List.mem_append, hstarted, and_iff_right rfl, or_iff_left hnot]
    · rw [List.mem_cons, or_iff_right hba, refreshFrom]
      split
      · rename_i hempty
        rw [hstarted]
        refine iff_of_false (fun h => hba h.1) ?_
        rintro ⟨hmem, -, hall⟩
        exact hall a List.mem_cons_self (hhead b hmem) (List.isEmpty_iff.mp hempty)
      · rename_i hnonempty
        have hne : pool.peersOnBucket a.1 a.2 ≠ [] := fun hnil =>
          hnonempty (List.isEmpty_iff.mpr hnil)
        rw [List.mem_append, hstarted, or_iff_right (fun h => hba h.1), ih htail,
          List.forall_mem_cons, and_iff_right (fun _ => hne)]

/-- **No discovery is started twice.** -/
theorem sublist_refreshFrom (buckets : List (ℕ × ℕ)) :
    (pool.refreshFrom buckets).Sublist buckets := by
  induction buckets with
  | nil => exact .slnil
  | cons a buckets ih =>
    have hstarted : (if (pool.peersOnBucket a.1 a.2).length < kademliaBucketSize
        then [a] else []).Sublist [a] := by
      split
      · exact .refl _
      · exact List.nil_sublist _
    rw [refreshFrom]
    split
    · exact hstarted.trans (List.singleton_sublist.mpr List.mem_cons_self)
    · exact hstarted.append ih

end ConnectionPool

/-- What `refresh_buckets` is for: a bucket that lacks peers, unless it is deeper than an
empty one. -/
def WorthFilling (pool : ConnectionPool) (b : ℕ × ℕ) : Prop :=
  (b.1 < 128 ∧ b.2 < 3) ∧ (pool.peersOnBucket b.1 b.2).length < kademliaBucketSize ∧
    ∀ b' : ℕ × ℕ, b'.1 < 128 ∧ b'.2 < 3 → pool.peersOnBucket b'.1 b'.2 = [] → ¬ b'.1 < b.1

/-- On the first level with an empty bucket, the buckets after it have all their peers. -/
def SiblingsFull (pool : ConnectionPool) : Prop :=
  ∀ l k k', l < 128 → k < k' → k' < 3 → pool.peersOnBucket l k = [] →
    (∀ b : ℕ × ℕ, b.1 < l → b.2 < 3 → pool.peersOnBucket b.1 b.2 ≠ []) →
    kademliaBucketSize ≤ (pool.peersOnBucket l k').length

/-- **A refresh covers the buckets worth filling**, each once, exactly if the first empty bucket is
the last of its level that lacks peers. -/
theorem refresh_covers_iff (pool : ConnectionPool) :
    ((∀ b, b ∈ pool.refreshBuckets ↔ WorthFilling pool b) ∧ pool.refreshBuckets.Nodup) ↔
      SiblingsFull pool := by
  have hmem : ∀ b, b ∈ pool.refreshBuckets ↔ (b.1 < 128 ∧ b.2 < 3) ∧
      (pool.peersOnBucket b.1 b.2).length < kademliaBucketSize ∧
      ∀ b' : ℕ × ℕ, b'.1 < 128 ∧ b'.2 < 3 → Earlier b' b → pool.peersOnBucket b'.1 b'.2 ≠ [] := by
    intro b
    rw [ConnectionPool.refreshBuckets, ConnectionPool.mem_refreshFrom (pairwise_bucketsBelow 128),
      mem_bucketsBelow]
    simp only [mem_bucketsBelow]
  have hnodup : pool.refreshBuckets.Nodup :=
    (nodup_bucketsBelow 128).sublist (ConnectionPool.sublist_refreshFrom _)
  refine (and_iff_left hnodup).trans ⟨fun h l k k' hl hlt hk' hempty hlower => ?_, fun h b => ?_⟩
  · -- the sibling is not started, so it is not worth filling
    by_contra hfew
    have hworth : WorthFilling pool (l, k') := by
      refine ⟨⟨hl, hk'⟩, Nat.lt_of_not_le hfew, fun b' hb' hnil hlt' => ?_⟩
      exact hlower b' hlt' hb'.2 hnil
    obtain ⟨-, -, hall⟩ := (hmem _).mp ((h _).mpr hworth)
    exact hall (l, k) ⟨hl, hlt.trans hk'⟩ (Or.inr ⟨rfl, hlt⟩) hempty
  · rw [hmem, WorthFilling]
    refine and_congr_right fun hb => and_congr_right fun hfew => ⟨fun hall b' hb' hnil hlt => ?_,
      fun hall b' hb' hlt hnil => ?_⟩
    · exact hall b' hb' (Or.inl hlt) hnil
    · rcases hlt with hlt | ⟨hlevel, hlt⟩
      · exact hall b' hb' hnil hlt
      · -- an empty sibling is on the first level with an empty bucket
        have hlower : ∀ b'' : ℕ × ℕ, b''.1 < b.1 → b''.2 < 3 →
            pool.peersOnBucket b''.1 b''.2 ≠ [] := by
          intro b'' hlt'' hk'' hnil''
          exact hall b'' ⟨hlt''.trans hb.1, hk''⟩ hnil'' hlt''
        rw [hlevel] at hnil
        exact absurd (h b.1 b'.2 b.2 hb.1 hlt hb.2 hnil hlower) (Nat.not_le_of_lt hfew)

/-- In the empty pool the first bucket is the only one for which a discovery is started, though
the second is not deeper. -/
theorem refresh_leaves_sibling :
    (0, 1) ∉ (ConnectionPool.new (.ofByte 0)).refreshBuckets ∧
      WorthFilling (.new (.ofByte 0)) (0, 1) := by
  refine ⟨fun hmem => ?_, ⟨by decide, by decide⟩, ?_, fun b _ _ => Nat.not_lt_zero b.1⟩
  · rw [ConnectionPool.refreshBuckets,
      ConnectionPool.mem_refreshFrom (pairwise_bucketsBelow 128)] at hmem
    exact hmem.2.2 (0, 0) (mem_bucketsBelow.mpr ⟨by decide, by decide⟩)
      (Or.inr ⟨rfl, Nat.zero_lt_one⟩) (ConnectionPool.peersOnBucket_new _ _ _)
  · rw [ConnectionPool.peersOnBucket_new]
    exact kademliaBucketSize_pos

/-! ### Calls -/

/-- A call of `refresh_buckets`: the buckets that it has to go through, how many peers it has
found in the first of them, and the buckets for which it has spawned a discovery. -/
structure RefreshCall where
  remaining : List (ℕ × ℕ)
  found : Option ℕ
  spawned : List (ℕ × ℕ)

/-- The pool, with the calls of `refresh_buckets` and the discoveries that were spawned.
`counts` is what the discoveries have found in their buckets. -/
structure RefreshState where
  pool : ConnectionPool
  calls : ℕ → Option RefreshCall
  tasks : ℕ → Option Discovery
  counts : List ℕ

inductive RefreshLabel
  /-- a handshake ends with `insert` -/
  | insert (n : PeerID) (peer : PeerInfo)
  | remove (n : PeerID)
  /-- `refresh_buckets` is called -/
  | call (c : ℕ)
  /-- `peers_on_bucket` in a call -/
  | look (c : ℕ)
  /-- the rest of that turn, with the number of the task if one is spawned -/
  | turn (c t : ℕ)
  /-- a discovery goes on -/
  | task (t : ℕ) (l : DiscoveryLabel)

namespace RefreshState

/-- Before the first call. -/
def init (pool : ConnectionPool) : RefreshState where
  pool := pool
  calls _ := none
  tasks _ := none
  counts := []

/-- How many peers a bucket has. -/
def size (s : RefreshState) (b : ℕ × ℕ) : ℕ := (s.pool.peersOnBucket b.1 b.2).length

/-- A turn of `refresh_buckets`, after it has found a number of peers. -/
def turn (s : RefreshState) (c t : ℕ) (b : ℕ × ℕ) (buckets : List (ℕ × ℕ)) (found : ℕ)
    (spawned : List (ℕ × ℕ)) : Option RefreshState :=
  let remaining := if found = 0 then [] else buckets
  if found < kademliaBucketSize then
    match s.tasks t with
    | some _ => none
    | none =>
      (Discovery.start s.pool.ourPeerId b.1 b.2).map fun d =>
        { s with
          calls := Function.update s.calls c (some ⟨remaining, none, spawned ++ [b]⟩)
          tasks := Function.update s.tasks t (some d) }
  else some { s with calls := Function.update s.calls c (some ⟨remaining, none, spawned⟩) }

/-- What a discovery adds to `counts`. -/
def counted (s : RefreshState) (d : Discovery) : DiscoveryLabel → List ℕ
  | .count => [s.size (d.bucketLevel, d.bucketId)]
  | _ => []

variable (overflowChecks : Bool)

def step (s : RefreshState) : RefreshLabel → Option RefreshState
  | .insert n peer =>
    if s.pool.contains n then none else some { s with pool := s.pool.insert n peer }
  | .remove n => some { s with pool := s.pool.remove n }
  | .call c =>
    match s.calls c with
    | none => some { s with calls := Function.update s.calls c (some ⟨bucketsBelow 128, none, []⟩) }
    | some _ => none
  | .look c =>
    match s.calls c with
    | some ⟨b :: buckets, none, spawned⟩ =>
      some { s with calls := Function.update s.calls c (some ⟨b :: buckets, s.size b, spawned⟩) }
    | _ => none
  | .turn c t =>
    match s.calls c with
    | some ⟨b :: buckets, some found, spawned⟩ => s.turn c t b buckets found spawned
    | _ => none
  | .task t l =>
    match s.tasks t with
    | some d =>
      (d.step overflowChecks (s.pool, l)).map fun d' =>
        { s with
          tasks := Function.update s.tasks t (some d')
          counts := s.counts ++ s.counted d l }
    | none => none

/-- What one step can be. -/
inductive Steps (s : RefreshState) : RefreshLabel → RefreshState → Prop
  | insert {n peer} : n ∉ s.pool.peers →
      Steps s (.insert n peer) { s with pool := s.pool.insert n peer }
  | remove {n} : Steps s (.remove n) { s with pool := s.pool.remove n }
  | call {c} : s.calls c = none → Steps s (.call c)
      { s with calls := Function.update s.calls c (some ⟨bucketsBelow 128, none, []⟩) }
  | look {c b buckets spawned} : s.calls c = some ⟨b :: buckets, none, spawned⟩ →
      Steps s (.look c)
        { s with calls := Function.update s.calls c (some ⟨b :: buckets, s.size b, spawned⟩) }
  | spawns {c t b buckets found spawned d} :
      s.calls c = some ⟨b :: buckets, some found, spawned⟩ → found < kademliaBucketSize →
      s.tasks t = none → Discovery.start s.pool.ourPeerId b.1 b.2 = some d →
      Steps s (.turn c t) { s with
        calls := Function.update s.calls c
          (some ⟨if found = 0 then [] else buckets, none, spawned ++ [b]⟩)
        tasks := Function.update s.tasks t (some d) }
  | passes {c t b buckets found spawned} :
      s.calls c = some ⟨b :: buckets, some found, spawned⟩ → kademliaBucketSize ≤ found →
      Steps s (.turn c t)
        { s with calls := Function.update s.calls c (some ⟨buckets, none, spawned⟩) }
  | task {t l d d'} : s.tasks t = some d → d.step overflowChecks (s.pool, l) = some d' →
      Steps s (.task t l) { s with
        tasks := Function.update s.tasks t (some d')
        counts := s.counts ++ s.counted d l }

variable {overflowChecks : Bool} {s s' : RefreshState} {l : RefreshLabel}

theorem step_cases (h : s.step overflowChecks l = some s') : Steps overflowChecks s l s' := by
  cases l with
  | insert n peer =>
    rw [step] at h
    split at h
    · cases h
    · rename_i hcontains
      cases h
      refine .insert fun hn => hcontains ?_
      rw [s.pool.contains_eq_isSome, Option.isSome_iff_ne_none]
      exact s.pool.mem_peers.mp hn
  | remove n =>
    cases h
    exact .remove
  | call c =>
    rw [step] at h
    split at h
    · rename_i hnone
      cases h
      exact .call hnone
    · cases h
  | look c =>
    rw [step] at h
    split at h
    · rename_i hcall
      cases h
      exact .look hcall
    · cases h
  | turn c t =>
    rw [step] at h
    split at h
    · rename_i b buckets found spawned hcall
      rw [turn] at h
      split at h
      · rename_i hlt
        split at h
        · cases h
        · rename_i hnone
          obtain ⟨d, hd, rfl⟩ := Option.map_eq_some_iff.mp h
          exact .spawns hcall hlt hnone hd
      · rename_i hge
        cases h
        have hpos : found ≠ 0 := fun hzero => hge (hzero ▸ kademliaBucketSize_pos)
        rw [if_neg hpos]
        exact .passes hcall (Nat.le_of_not_lt hge)
    · cases h
  | task t l =>
    rw [step] at h
    split at h
    · rename_i d hd
      obtain ⟨d', hd', rfl⟩ := Option.map_eq_some_iff.mp h
      exact .task hd hd'
    · cases h

/-! ### A pool that stays as it is -/

/-- What a call has spawned, and what it will spawn of the buckets that are left, is what a
refresh spawns. -/
structure CallInv (pool : ConnectionPool) (call : RefreshCall) : Prop where
  found : ∀ n, call.found = some n → ∃ b buckets, call.remaining = b :: buckets ∧
    n = (pool.peersOnBucket b.1 b.2).length
  total : call.spawned ++ pool.refreshFrom call.remaining = pool.refreshBuckets

theorem callInv_of_step {pool : ConnectionPool} {c : ℕ} (hpool : s.pool = pool)
    (inv : ∀ call, s.calls c = some call → CallInv pool call)
    (h : s.step overflowChecks l = some s') :
    ∀ call, s'.calls c = some call → CallInv pool call := by
  intro call hcall
  cases step_cases h with
  | call _ =>
    rcases update_eq_cases hcall with ⟨-, heq⟩ | ⟨-, hcall⟩
    · cases heq
      exact ⟨fun _ h => (nomatch h), List.nil_append _⟩
    · exact inv call hcall
  | look hlook =>
    rcases update_eq_cases hcall with ⟨rfl, heq⟩ | ⟨-, hcall⟩
    · cases heq
      refine ⟨fun n hn => ⟨_, _, rfl, ?_⟩, (inv _ hlook).total⟩
      rw [← Option.some.inj hn, size, hpool]
    · exact inv call hcall
  | spawns hturn hlt _ _ =>
    rcases update_eq_cases hcall with ⟨rfl, heq⟩ | ⟨-, hcall⟩
    · cases heq
      obtain ⟨b, buckets, hcons, hfound⟩ := (inv _ hturn).found _ rfl
      cases hcons
      refine ⟨fun _ h => (nomatch h), Eq.trans ?_ (inv _ hturn).total⟩
      rw [ConnectionPool.refreshFrom_cons, ← hfound, if_pos hlt, List.append_assoc]
    · exact inv call hcall
  | passes hturn hge =>
    rcases update_eq_cases hcall with ⟨rfl, heq⟩ | ⟨-, hcall⟩
    · cases heq
      obtain ⟨b, buckets, hcons, hfound⟩ := (inv _ hturn).found _ rfl
      cases hcons
      refine ⟨fun _ h => (nomatch h), Eq.trans ?_ (inv _ hturn).total⟩
      have hpos : ¬ _ = 0 := (kademliaBucketSize_pos.trans_le hge).ne'
      rw [ConnectionPool.refreshFrom_cons, ← hfound, if_neg (Nat.not_lt_of_le hge), if_neg hpos,
        List.nil_append]
    · exact inv call hcall
  | _ => exact inv call hcall

/-- **A call during which the pool stays as it is** spawns the discoveries of `refreshBuckets`. -/
theorem spawned_of_done {s₀ : RefreshState} {labels : List RefreshLabel} {c : ℕ}
    {call : RefreshCall} (hc : s₀.calls c = none) (hrun : exec (step overflowChecks) s₀ labels = some s)
    (hpool : Meets (step overflowChecks) (fun s _ => s.pool = s₀.pool) s₀ labels)
    (hcall : s.calls c = some call) (hdone : call.remaining = []) :
    call.spawned = s₀.pool.refreshBuckets := by
  have inv := invariant_of_meets
    (I := fun s => ∀ call, s.calls c = some call → CallInv s₀.pool call)
    (fun _ _ _ inv hpool h => callInv_of_step hpool inv h) hpool hrun
    (fun call hcall => by rw [hc] at hcall; cases hcall)
  have htotal := (inv call hcall).total
  rw [hdone] at htotal
  exact (List.append_nil _).symm.trans htotal

end RefreshState

end Tewta
