import Tewta.SegmentedArray

/-!
# What the root hash commits to

The root hash of `SegmentedArray::from(v)` is compared with that of
`SegmentedArray::from(w)`.  Leaves and inner nodes are digested the same way,
with nothing in the digested string that tells them apart, so an item whose
encoding happens to be the concatenation of the hashes of a group stands for
that group: `root_hash_not_binding` exhibits two vectors that differ, have one
root hash, and involve no collision of SHA-256.

`root_hash_commits` says that this is the only way it goes wrong.  Each of the
two arrays is a number of rounds of `regroup` over the items
(`exists_iterate_of_groupLoop`).  Without collisions, equal root hashes give
equal lists of segment hashes, and one round can be undone on both sides at
once (`map_hash_eq_of_regroup`).  If the numbers of rounds agree this ends at
the items; if they do not, it ends with items on one side and groups on the
other, and then an item encodes what a group digests.
-/

namespace Tewta

variable {T : Type} {N : ℕ}

section Digested

variable (sha256 : Bytes → Bytes32) (encode : T → Bytes)

mutual

/-- The byte strings that are digested when a segment is hashed. -/
def Segment.digested : Segment T N → List Bytes
  | .item t => [encode t]
  | .segmentedArray segments =>
    hashInput sha256 (fun t => sha256 (encode t)) segments :: digestedIn segments
  | .unknown _ => []

def digestedIn : List (Segment T N) → List Bytes
  | [] => []
  | segment :: segments => Segment.digested segment ++ digestedIn segments

end

mutual

/-- The byte strings that are digested for the nested arrays of a segment. -/
def Segment.groupInputs : Segment T N → List Bytes
  | .item _ => []
  | .segmentedArray segments =>
    hashInput sha256 (fun t => sha256 (encode t)) segments :: groupInputsIn segments
  | .unknown _ => []

def groupInputsIn : List (Segment T N) → List Bytes
  | [] => []
  | segment :: segments => Segment.groupInputs segment ++ groupInputsIn segments

end

/-- The byte strings that are digested when an array is hashed. -/
def SegmentedArray.digested (array : SegmentedArray T N) : List Bytes :=
  hashInput sha256 (fun t => sha256 (encode t)) array.segments
    :: digestedIn sha256 encode array.segments

/-- Those of them that stand for a nested array. -/
def SegmentedArray.groupInputs (array : SegmentedArray T N) : List Bytes :=
  groupInputsIn sha256 encode array.segments

/-- No two distinct strings of the list have one digest. -/
def CollisionFree (strings : List Bytes) : Prop :=
  ∀ x ∈ strings, ∀ y ∈ strings, sha256 x = sha256 y → x = y

theorem digestedIn_eq_flatMap (segments : List (Segment T N)) :
    digestedIn sha256 encode segments = segments.flatMap (Segment.digested sha256 encode) := by
  induction segments with
  | nil => rfl
  | cons segment segments ih => rw [digestedIn, ih, List.flatMap_cons]

theorem groupInputsIn_eq_flatMap (segments : List (Segment T N)) :
    groupInputsIn sha256 encode segments = segments.flatMap (Segment.groupInputs sha256 encode) := by
  induction segments with
  | nil => rfl
  | cons segment segments ih => rw [groupInputsIn, ih, List.flatMap_cons]

end Digested

variable {sha256 : Bytes → Bytes32} {encode : T → Bytes}

theorem CollisionFree.mono {as bs : List Bytes} (h : CollisionFree sha256 bs) (hsub : as ⊆ bs) :
    CollisionFree sha256 as :=
  fun x hx y hy => h x (hsub hx) y (hsub hy)

theorem CollisionFree.append_comm {as bs : List Bytes} (h : CollisionFree sha256 (as ++ bs)) :
    CollisionFree sha256 (bs ++ as) :=
  h.mono (List.append_subset.mpr ⟨List.subset_append_right _ _, List.subset_append_left _ _⟩)

theorem CollisionFree.mono_append {as bs as' bs' : List Bytes}
    (h : CollisionFree sha256 (as' ++ bs')) (ha : as ⊆ as') (hb : bs ⊆ bs') :
    CollisionFree sha256 (as ++ bs) :=
  h.mono (List.append_subset.mpr
    ⟨List.Subset.trans ha (List.subset_append_left _ _),
      List.Subset.trans hb (List.subset_append_right _ _)⟩)

/-! ### Undoing one digest -/

/-- A concatenation of 32-byte strings determines them. -/
theorem flatMap_toList_injective : ∀ {as bs : List Bytes32},
    as.flatMap Bytes32.toList = bs.flatMap Bytes32.toList → as = bs := by
  intro as
  induction as with
  | nil =>
    intro bs h
    cases bs with
    | nil => rfl
    | cons b bs =>
      have hlen := congrArg List.length h
      rw [List.flatMap_cons, List.length_append, b.length_toList] at hlen
      simp at hlen
      omega
  | cons a as ih =>
    intro bs h
    cases bs with
    | nil =>
      have hlen := congrArg List.length h
      rw [List.flatMap_cons, List.length_append, a.length_toList] at hlen
      simp at hlen
    | cons b bs =>
      rw [List.flatMap_cons, List.flatMap_cons] at h
      obtain ⟨hab, hrest⟩ := List.append_inj h (by rw [a.length_toList, b.length_toList])
      rw [Bytes32.ext hab, ih hrest]

theorem map_hash_eq_of_hashInput_eq {itemHash : T → Bytes32} {xs ys : List (Segment T N)}
    (h : hashInput sha256 itemHash xs = hashInput sha256 itemHash ys) :
    xs.map (Segment.hash sha256 itemHash) = ys.map (Segment.hash sha256 itemHash) := by
  rw [hashInput_eq_flatMap, hashInput_eq_flatMap] at h
  exact flatMap_toList_injective h

/-! ### Undoing one round -/

theorem mem_digestedIn_of_mem {segments : List (Segment T N)} {segment : Segment T N} {x : Bytes}
    (hs : segment ∈ segments) (hx : x ∈ segment.digested sha256 encode) :
    x ∈ digestedIn sha256 encode segments := by
  rw [digestedIn_eq_flatMap]
  exact List.mem_flatMap.mpr ⟨segment, hs, hx⟩

theorem mem_groupInputsIn_of_mem {segments : List (Segment T N)} {segment : Segment T N} {x : Bytes}
    (hs : segment ∈ segments) (hx : x ∈ segment.groupInputs sha256 encode) :
    x ∈ groupInputsIn sha256 encode segments := by
  rw [groupInputsIn_eq_flatMap]
  exact List.mem_flatMap.mpr ⟨segment, hs, hx⟩

theorem hashInput_mem_digestedIn {segments group : List (Segment T N)}
    (h : Segment.segmentedArray group ∈ segments) :
    hashInput sha256 (fun t => sha256 (encode t)) group ∈ digestedIn sha256 encode segments :=
  mem_digestedIn_of_mem h (by rw [Segment.digested]; exact List.mem_cons_self)

theorem encode_mem_digestedIn {segments : List (Segment T N)} {t : T}
    (h : Segment.item t ∈ segments) : encode t ∈ digestedIn sha256 encode segments :=
  mem_digestedIn_of_mem h (by rw [Segment.digested]; exact List.mem_singleton_self _)

/-- What is digested below the groups is digested below the round. -/
theorem digestedIn_subset_regroup (segments : List (Segment T N)) :
    digestedIn sha256 encode segments ⊆ digestedIn sha256 encode (regroup segments) := by
  intro x hx
  rw [digestedIn_eq_flatMap] at hx
  obtain ⟨segment, hs, hx⟩ := List.mem_flatMap.mp hx
  rw [← flatten_groups N segments] at hs
  obtain ⟨group, hg, hs⟩ := List.mem_flatten.mp hs
  refine mem_digestedIn_of_mem (List.mem_map.mpr ⟨group, hg, rfl⟩) ?_
  rw [Segment.digested]
  exact List.mem_cons_of_mem _ (mem_digestedIn_of_mem hs hx)

theorem groupInputsIn_subset_regroup (segments : List (Segment T N)) :
    groupInputsIn sha256 encode segments ⊆ groupInputsIn sha256 encode (regroup segments) := by
  intro x hx
  rw [groupInputsIn_eq_flatMap] at hx
  obtain ⟨segment, hs, hx⟩ := List.mem_flatMap.mp hx
  rw [← flatten_groups N segments] at hs
  obtain ⟨group, hg, hs⟩ := List.mem_flatten.mp hs
  refine mem_groupInputsIn_of_mem (List.mem_map.mpr ⟨group, hg, rfl⟩) ?_
  rw [Segment.groupInputs]
  exact List.mem_cons_of_mem _ (mem_groupInputsIn_of_mem hs hx)

/-- Groups with equal hashes, collisions aside, are groups of segments with
equal hashes. -/
theorem map_hash_eq_of_groups {gs hs : List (List (Segment T N))} {strings : List Bytes}
    (hfree : CollisionFree sha256 strings)
    (hg : ∀ g ∈ gs, hashInput sha256 (fun t => sha256 (encode t)) g ∈ strings)
    (hh : ∀ h ∈ hs, hashInput sha256 (fun t => sha256 (encode t)) h ∈ strings)
    (heq : (gs.map Segment.segmentedArray).map (Segment.hash sha256 fun t => sha256 (encode t)) =
      (hs.map Segment.segmentedArray).map (Segment.hash sha256 fun t => sha256 (encode t))) :
    gs.flatten.map (Segment.hash sha256 fun t => sha256 (encode t)) =
      hs.flatten.map (Segment.hash sha256 fun t => sha256 (encode t)) := by
  induction gs generalizing hs with
  | nil =>
    cases hs with
    | nil => rfl
    | cons h hs => simp at heq
  | cons g gs ih =>
    cases hs with
    | nil => simp at heq
    | cons h hs =>
      simp only [List.map_cons, List.cons.injEq, Segment.hash] at heq
      have hinput := hfree _ (hg g List.mem_cons_self) _ (hh h List.mem_cons_self) heq.1
      rw [List.flatten_cons, List.flatten_cons, List.map_append, List.map_append,
        map_hash_eq_of_hashInput_eq hinput,
        ih (fun g' hg' => hg g' (List.mem_cons_of_mem g hg'))
          (fun h' hh' => hh h' (List.mem_cons_of_mem h hh')) heq.2]

theorem map_hash_eq_of_regroup {xs ys : List (Segment T N)}
    (hfree : CollisionFree sha256
      (digestedIn sha256 encode (regroup xs) ++ digestedIn sha256 encode (regroup ys)))
    (heq : (regroup xs).map (Segment.hash sha256 fun t => sha256 (encode t)) =
      (regroup ys).map (Segment.hash sha256 fun t => sha256 (encode t))) :
    xs.map (Segment.hash sha256 fun t => sha256 (encode t)) =
      ys.map (Segment.hash sha256 fun t => sha256 (encode t)) := by
  have hx : ∀ g ∈ groups N xs, hashInput sha256 (fun t => sha256 (encode t)) g ∈
      digestedIn sha256 encode (regroup xs) ++ digestedIn sha256 encode (regroup ys) :=
    fun g hg => List.mem_append_left _ (hashInput_mem_digestedIn (List.mem_map.mpr ⟨g, hg, rfl⟩))
  have hy : ∀ g ∈ groups N ys, hashInput sha256 (fun t => sha256 (encode t)) g ∈
      digestedIn sha256 encode (regroup xs) ++ digestedIn sha256 encode (regroup ys) :=
    fun g hg => List.mem_append_right _ (hashInput_mem_digestedIn (List.mem_map.mpr ⟨g, hg, rfl⟩))
  have h := map_hash_eq_of_groups hfree hx hy heq
  rwa [flatten_groups, flatten_groups] at h

/-! ### At the bottom -/

/-- Items with equal hashes, collisions aside, are equal. -/
theorem eq_of_map_item {v w : List T} (hinj : Function.Injective encode)
    (hfree : CollisionFree sha256 (digestedIn sha256 encode (v.map (Segment.item (N := N))) ++
      digestedIn sha256 encode (w.map (Segment.item (N := N)))))
    (heq : (v.map (Segment.item (N := N))).map (Segment.hash sha256 fun t => sha256 (encode t)) =
      (w.map (Segment.item (N := N))).map (Segment.hash sha256 fun t => sha256 (encode t))) :
    v = w := by
  refine List.ext_getElem (by simpa using congrArg List.length heq) (fun i hv hw => ?_)
  have hi : sha256 (encode v[i]) = sha256 (encode w[i]) := by
    have := congrArg (·[i]?) heq
    simpa [List.getElem?_map, List.getElem?_eq_getElem hv, List.getElem?_eq_getElem hw,
      Segment.hash] using this
  exact hinj (hfree _
    (List.mem_append_left _ (encode_mem_digestedIn (List.mem_map.mpr ⟨_, List.getElem_mem hv, rfl⟩)))
    _ (List.mem_append_right _
      (encode_mem_digestedIn (List.mem_map.mpr ⟨_, List.getElem_mem hw, rfl⟩))) hi)

/-- Items with the hashes of groups, collisions aside, encode what the groups
digest.  Here `v` is short of a round that `ys` has had. -/
theorem exists_encode_mem_groupInputs {v : List T} {ys : List (Segment T N)} (hne : ys ≠ [])
    (hfree : CollisionFree sha256 (digestedIn sha256 encode (v.map (Segment.item (N := N))) ++
      digestedIn sha256 encode (regroup ys)))
    (heq : (v.map (Segment.item (N := N))).map (Segment.hash sha256 fun t => sha256 (encode t)) =
      (regroup ys).map (Segment.hash sha256 fun t => sha256 (encode t))) :
    ∃ x ∈ v, encode x ∈ groupInputsIn sha256 encode (regroup ys) := by
  obtain ⟨y, ys, rfl⟩ := List.exists_cons_of_ne_nil hne
  cases v with
  | nil => rw [regroup, groups_cons] at heq; simp at heq
  | cons x v =>
    have hg : Segment.segmentedArray (y :: ys.take (N - 1)) ∈ regroup (y :: ys) := by
      rw [regroup, groups_cons]
      exact List.mem_cons_self
    have hx : sha256 (encode x) =
        sha256 (hashInput sha256 (fun t => sha256 (encode t)) (y :: ys.take (N - 1))) := by
      rw [regroup, groups_cons] at heq
      simp only [List.map_cons, List.cons.injEq] at heq
      simpa only [Segment.hash] using heq.1
    refine ⟨x, List.mem_cons_self, ?_⟩
    rw [hfree _ (List.mem_append_left _ (encode_mem_digestedIn List.mem_cons_self)) _
      (List.mem_append_right _ (hashInput_mem_digestedIn hg)) hx]
    exact mem_groupInputsIn_of_mem hg (by rw [Segment.groupInputs]; exact List.mem_cons_self)

theorem regroup_ne_nil {xs : List (Segment T N)} (h : xs ≠ []) : regroup xs ≠ [] := by
  obtain ⟨x, xs, rfl⟩ := List.exists_cons_of_ne_nil h
  rw [regroup, groups_cons]
  simp

theorem regroup_nil : regroup ([] : List (Segment T N)) = [] := by
  rw [regroup, groups_nil, List.map_nil]

theorem iterate_regroup_ne_nil (xs : List (Segment T N)) (h : xs ≠ []) (k : ℕ) :
    regroup^[k] xs ≠ [] := by
  induction k with
  | zero => exact h
  | succ k ih => rw [Function.iterate_succ_apply']; exact regroup_ne_nil ih

theorem iterate_regroup_nil (k : ℕ) : regroup^[k] ([] : List (Segment T N)) = [] := by
  induction k with
  | zero => rfl
  | succ k ih => rw [Function.iterate_succ_apply, regroup_nil, ih]

/-! ### All the way down -/

theorem digestedIn_subset_iterate (segments : List (Segment T N)) (k : ℕ) :
    digestedIn sha256 encode segments ⊆ digestedIn sha256 encode (regroup^[k] segments) := by
  induction k with
  | zero => exact fun _ h => h
  | succ k ih =>
    rw [Function.iterate_succ_apply']
    exact List.Subset.trans ih (digestedIn_subset_regroup _)

theorem groupInputsIn_subset_iterate (segments : List (Segment T N)) (k : ℕ) :
    groupInputsIn sha256 encode segments ⊆ groupInputsIn sha256 encode (regroup^[k] segments) := by
  induction k with
  | zero => exact fun _ h => h
  | succ k ih =>
    rw [Function.iterate_succ_apply']
    exact List.Subset.trans ih (groupInputsIn_subset_regroup _)

/-- As many rounds as both sides have had can be undone together. -/
theorem map_hash_eq_of_iterate {xs ys : List (Segment T N)} (k : ℕ)
    (hfree : CollisionFree sha256
      (digestedIn sha256 encode (regroup^[k] xs) ++ digestedIn sha256 encode (regroup^[k] ys)))
    (heq : (regroup^[k] xs).map (Segment.hash sha256 fun t => sha256 (encode t)) =
      (regroup^[k] ys).map (Segment.hash sha256 fun t => sha256 (encode t))) :
    xs.map (Segment.hash sha256 fun t => sha256 (encode t)) =
      ys.map (Segment.hash sha256 fun t => sha256 (encode t)) := by
  induction k with
  | zero => exact heq
  | succ k ih =>
    rw [Function.iterate_succ_apply', Function.iterate_succ_apply'] at heq hfree
    exact ih (hfree.mono_append (digestedIn_subset_regroup _) (digestedIn_subset_regroup _))
      (map_hash_eq_of_regroup hfree heq)

/-- The side with fewer rounds is the one whose items may stand for groups. -/
theorem eq_or_exists_encode {v w : List T} {j k : ℕ} (hinj : Function.Injective encode)
    (hfree : CollisionFree sha256
      (digestedIn sha256 encode (regroup^[k] (v.map (Segment.item (N := N)))) ++
        digestedIn sha256 encode (regroup^[k + j] (w.map (Segment.item (N := N))))))
    (heq : (regroup^[k] (v.map (Segment.item (N := N)))).map
        (Segment.hash sha256 fun t => sha256 (encode t)) =
      (regroup^[k + j] (w.map (Segment.item (N := N)))).map
        (Segment.hash sha256 fun t => sha256 (encode t))) :
    v = w ∨ (0 < j ∧ ∃ x ∈ v, encode x ∈
      groupInputsIn sha256 encode (regroup^[k + j] (w.map (Segment.item (N := N))))) := by
  rw [Function.iterate_add_apply] at heq hfree ⊢
  have heq' := map_hash_eq_of_iterate k hfree heq
  have hfree' := hfree.mono_append (digestedIn_subset_iterate (v.map (Segment.item (N := N))) k)
    (digestedIn_subset_iterate (regroup^[j] (w.map (Segment.item (N := N)))) k)
  cases j with
  | zero => exact Or.inl (eq_of_map_item hinj hfree' heq')
  | succ j =>
    by_cases hw : w = []
    · -- no rounds make anything of no items, so the other side has none either
      subst hw
      rw [List.map_nil, iterate_regroup_nil, List.map_nil] at heq'
      exact Or.inl (List.map_eq_nil_iff.mp (List.map_eq_nil_iff.mp heq'))
    · rw [Function.iterate_succ_apply'] at heq' hfree'
      have hne := iterate_regroup_ne_nil (w.map (Segment.item (N := N))) (by simpa using hw) j
      obtain ⟨x, hx, hmem⟩ := exists_encode_mem_groupInputs hne hfree' heq'
      refine Or.inr ⟨Nat.succ_pos j, x, hx, ?_⟩
      exact groupInputsIn_subset_iterate _ k (by rwa [Function.iterate_succ_apply'])

/-! ### The root hash -/

/-- `eq_or_exists_encode` for what `fromVec` returns. -/
theorem eq_or_exists_encode_of_fromVec [Hashable T] {v w : List T} {a b : SegmentedArray T N}
    (hinj : Function.Injective (Hashable.encode (T := T)))
    (ha : SegmentedArray.fromVec v = some a) (hb : SegmentedArray.fromVec w = some b)
    (hroot : a.hash sha256 (Hashable.hash sha256) = b.hash sha256 (Hashable.hash sha256))
    (hfree : CollisionFree sha256
      (a.digested sha256 Hashable.encode ++ b.digested sha256 Hashable.encode)) :
    v = w ∨ (v.length ≠ w.length ∧
      ((∃ x ∈ v, Hashable.encode x ∈ b.groupInputs sha256 Hashable.encode) ∨
        ∃ y ∈ w, Hashable.encode y ∈ a.groupInputs sha256 Hashable.encode)) := by
  obtain ⟨i, hi, hri⟩ := exists_iterate_of_groupLoop ha
  obtain ⟨j, hj, hrj⟩ := exists_iterate_of_groupLoop hb
  have hinput := hfree _ (List.mem_append_left _ List.mem_cons_self) _
    (List.mem_append_right _ List.mem_cons_self) hroot
  have heq := map_hash_eq_of_hashInput_eq hinput
  have hfree' : CollisionFree sha256 (digestedIn sha256 Hashable.encode a.segments ++
      digestedIn sha256 Hashable.encode b.segments) :=
    hfree.mono_append (List.subset_cons_self _ _) (List.subset_cons_self _ _)
  have hlen : v.length = w.length → i = j := by
    intro h
    rw [hri, hrj, List.length_map, List.length_map, h]
  rw [SegmentedArray.groupInputs, SegmentedArray.groupInputs]
  rw [hi, hj] at heq hfree' ⊢
  rcases Nat.le_total i j with hij | hij
  · obtain ⟨d, rfl⟩ := Nat.exists_eq_add_of_le hij
    rcases eq_or_exists_encode hinj hfree' heq with h | ⟨hd, h⟩
    · exact Or.inl h
    · exact Or.inr ⟨fun hvw => by have := hlen hvw; omega, Or.inl h⟩
  · obtain ⟨d, rfl⟩ := Nat.exists_eq_add_of_le hij
    rcases eq_or_exists_encode hinj hfree'.append_comm heq.symm with h | ⟨hd, h⟩
    · exact Or.inl h.symm
    · exact Or.inr ⟨fun hvw => by have := hlen hvw; omega, Or.inr h⟩

/-- **What the root hash commits to.**  Both arrays exist, and if their root
hashes agree with no collision among the strings digested, then the vectors
agree, unless an item of one of them encodes exactly what a nested array of the
other digests.  That takes vectors of different lengths. -/
theorem root_hash_commits [Hashable T] (hN : 2 ≤ N)
    (hinj : Function.Injective (Hashable.encode (T := T))) (v w : List T) :
    ∃ a b : SegmentedArray T N,
      SegmentedArray.fromVec v = some a ∧ SegmentedArray.fromVec w = some b ∧
      (a.hash sha256 (Hashable.hash sha256) = b.hash sha256 (Hashable.hash sha256) →
        CollisionFree sha256
          (a.digested sha256 Hashable.encode ++ b.digested sha256 Hashable.encode) →
        v = w ∨ (v.length ≠ w.length ∧
          ((∃ x ∈ v, Hashable.encode x ∈ b.groupInputs sha256 Hashable.encode) ∨
            ∃ y ∈ w, Hashable.encode y ∈ a.groupInputs sha256 Hashable.encode))) := by
  obtain ⟨a, ha⟩ := SegmentedArray.fromVec_isSome hN v
  obtain ⟨b, hb⟩ := SegmentedArray.fromVec_isSome hN w
  exact ⟨a, b, ha, hb, eq_or_exists_encode_of_fromVec hinj ha hb⟩

/-! ### An item that stands for a group -/

/-- An item that is fed to the hasher as it is. -/
structure Blob where
  bytes : Bytes
  deriving DecidableEq

instance : Hashable Blob := ⟨Blob.bytes⟩

theorem Blob.encode_injective : Function.Injective (Hashable.encode (T := Blob)) := by
  rintro ⟨a⟩ ⟨b⟩ h
  exact congrArg Blob.mk h

theorem collisionFree_of_nodup {strings : List Bytes} (distinct : List Bytes) (hsub : strings ⊆ distinct)
    (h : (distinct.map sha256).Nodup) : CollisionFree sha256 strings :=
  fun _ hx _ hy hxy => List.inj_on_of_nodup_map h (hsub hx) (hsub hy) hxy

def threeBlobs : List Blob := [⟨[1]⟩, ⟨[2]⟩, ⟨[3]⟩]

/-- The hashes of the first two blobs, and the hash of the third. -/
def twoHashes : List Blob :=
  [⟨(realSha256 [1]).toList ++ (realSha256 [2]).toList⟩, ⟨(realSha256 [3]).toList⟩]

theorem twoHashes_ne_threeBlobs : twoHashes ≠ threeBlobs := by
  intro h
  simpa [twoHashes, threeBlobs] using congrArg List.length h

theorem fromVec_threeBlobs : SegmentedArray.fromVec (N := 2) threeBlobs = some
    ⟨[.segmentedArray [.item ⟨[1]⟩, .item ⟨[2]⟩], .segmentedArray [.item ⟨[3]⟩]]⟩ := by
  simp [threeBlobs, SegmentedArray.fromVec, groupLoop, regroup, groups_cons, groups_nil]

/-- One root, and six strings digested that have six digests. -/
theorem blobs_same_root {a b : SegmentedArray Blob 2}
    (ha : SegmentedArray.fromVec twoHashes = some a)
    (hb : SegmentedArray.fromVec threeBlobs = some b) :
    a.hash realSha256 (Hashable.hash realSha256) = b.hash realSha256 (Hashable.hash realSha256) ∧
      CollisionFree realSha256
        (a.digested realSha256 Hashable.encode ++ b.digested realSha256 Hashable.encode) := by
  cases ha
  rw [fromVec_threeBlobs] at hb
  cases hb
  refine ⟨?_, collisionFree_of_nodup [[1], [2], [3], (realSha256 [3]).toList,
      (realSha256 [1]).toList ++ (realSha256 [2]).toList,
      (realSha256 ((realSha256 [1]).toList ++ (realSha256 [2]).toList)).toList ++
        (realSha256 (realSha256 [3]).toList).toList] ?_ (by decide +kernel)⟩
  · simp [twoHashes, SegmentedArray.hash, hashInput, Segment.hash, Hashable.hash, Hashable.encode]
  · simp [twoHashes, SegmentedArray.digested, digestedIn, Segment.digested, hashInput, Segment.hash,
      Hashable.encode]

/-- **The root hash is not binding.**  Three items have the root hash of two
items that encode what a group of two and a group of one digest. -/
theorem root_hash_not_binding :
    ∃ (v w : List Blob) (a b : SegmentedArray Blob 2),
      SegmentedArray.fromVec v = some a ∧ SegmentedArray.fromVec w = some b ∧
      a.hash realSha256 (Hashable.hash realSha256) = b.hash realSha256 (Hashable.hash realSha256) ∧
      CollisionFree realSha256
        (a.digested realSha256 Hashable.encode ++ b.digested realSha256 Hashable.encode) ∧
      v ≠ w := by
  obtain ⟨a, ha⟩ := SegmentedArray.fromVec_isSome (N := 2) (by norm_num) twoHashes
  obtain ⟨b, hb⟩ := SegmentedArray.fromVec_isSome (N := 2) (by norm_num) threeBlobs
  obtain ⟨hroot, hfree⟩ := blobs_same_root ha hb
  exact ⟨twoHashes, threeBlobs, a, b, ha, hb, hroot, hfree, twoHashes_ne_threeBlobs⟩

theorem root_hash_commits_blobs :
    ∃ a b : SegmentedArray Blob 2,
      SegmentedArray.fromVec twoHashes = some a ∧ SegmentedArray.fromVec threeBlobs = some b ∧
      ((∃ x ∈ twoHashes, Hashable.encode x ∈ b.groupInputs realSha256 Hashable.encode) ∨
        ∃ y ∈ threeBlobs, Hashable.encode y ∈ a.groupInputs realSha256 Hashable.encode) := by
  obtain ⟨a, b, ha, hb, h⟩ := root_hash_commits (N := 2) (by norm_num)
    Blob.encode_injective twoHashes threeBlobs
  obtain ⟨hroot, hfree⟩ := blobs_same_root ha hb
  rcases h hroot hfree with h | ⟨-, h⟩
  · exact absurd h twoHashes_ne_threeBlobs
  · exact ⟨a, b, ha, hb, h⟩

end Tewta
