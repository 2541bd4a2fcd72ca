import Tewta.SegmentedArray.Commit
import Tewta.SegmentedArray.Layout
import Tewta.SegmentedArray.Removal

/-!
# What else has the root hash

A peer that is sent a segmented array compares its root hash with the one it expects, that of
the array of a vector.  The array it is sent may be of any shape, and any of its hashes may
be made up.

Where the two hash trees meet there is a segment of the one and a segment of the other with
one hash.  A hash that is sent in the place of a segment is that of the segment, so
`remove_segment` puts it there; an item cannot stand for a nested array, nor a nested array
for an item, unless it encodes as a string of hashes, in which case its length is a multiple
of thirty-two; and two nested arrays with one hash have segments with the same hashes.  So
all that can be sent is what `remove_segment` makes of the array (`root_hash_admits_removals`).
-/

namespace Tewta

open Transition

variable {T : Type} {N : ℕ}

/-! ### Calls below a segment -/

/-- `remove_segment`, called somewhere in a list of segments. -/
def removeFrom (sha256 : Bytes → Bytes32) (itemHash : T → Bytes32) (segments : List (Segment T N))
    (r : Removal) : Option (List (Segment T N)) :=
  removeIn sha256 itemHash r.path r.index segments

/-- A call in the nested array with an index. -/
def Removal.below (j : ℕ) (r : Removal) : Removal := ⟨j :: r.path, r.index⟩

section Calls

variable {sha256 : Bytes → Bytes32} {itemHash : T → Bytes32}

theorem exec_removeAt_mk {segments segments' : List (Segment T N)} {calls : List Removal}
    (h : exec (removeFrom sha256 itemHash) segments calls = some segments') :
    exec (removeAt sha256 itemHash) ⟨segments⟩ calls = some ⟨segments'⟩ := by
  induction calls generalizing segments with
  | nil =>
    cases h
    rfl
  | cons r calls ih =>
    obtain ⟨middle, hm, h⟩ := exec_cons_eq_some.mp h
    refine exec_cons_eq_some.mpr ⟨⟨middle⟩, ?_, ih h⟩
    exact Option.map_eq_some_iff.mpr ⟨middle, hm, rfl⟩

/-- Calls in a nested array are calls in the array above it. -/
theorem exec_below {segments inner inner' : List (Segment T N)} {j : ℕ} {calls : List Removal}
    (hj : segments[j]? = some (.segmentedArray inner))
    (h : exec (removeFrom sha256 itemHash) inner calls = some inner') :
    exec (removeFrom sha256 itemHash) segments (calls.map (Removal.below j)) =
      some (segments.set j (.segmentedArray inner')) := by
  induction calls generalizing segments inner with
  | nil =>
    cases h
    obtain ⟨hlt, hget⟩ := List.getElem?_eq_some_iff.mp hj
    rw [← hget, List.set_getElem_self]
    rfl
  | cons r calls ih =>
    obtain ⟨middle, hm, h⟩ := exec_cons_eq_some.mp h
    have hlt := (List.getElem?_eq_some_iff.mp hj).1
    have hstep : removeFrom sha256 itemHash segments (r.below j) =
        some (segments.set j (.segmentedArray middle)) := by
      rw [removeFrom, Removal.below, removeIn, hj]
      exact Option.map_eq_some_iff.mpr ⟨middle, hm, rfl⟩
    refine exec_cons_eq_some.mpr ⟨_, hstep, ?_⟩
    rw [ih (List.getElem?_set_self hlt) h, List.set_set]

/-- Calls can put one segment in the place of another, wherever it stands. -/
def TurnsInto (sha256 : Bytes → Bytes32) (itemHash : T → Bytes32) (x y : Segment T N) : Prop :=
  ∀ before after, ∃ calls,
    exec (removeFrom sha256 itemHash) (before ++ x :: after) calls = some (before ++ y :: after)

theorem TurnsInto.refl (x : Segment T N) : TurnsInto sha256 itemHash x x :=
  fun _ _ => ⟨[], rfl⟩

theorem TurnsInto.unknown (x : Segment T N) :
    TurnsInto sha256 itemHash x (.unknown (x.hash sha256 itemHash)) := by
  intro before after
  refine ⟨[⟨[], before.length⟩], (exec_singleton _ _).trans ?_⟩
  rw [removeFrom, removeIn, removeSegment, List.getElem?_append_right le_rfl, Nat.sub_self]
  simp

theorem TurnsInto.segmentedArray {xs ys : List (Segment T N)} {calls : List Removal}
    (h : exec (removeFrom sha256 itemHash) xs calls = some ys) :
    TurnsInto sha256 itemHash (.segmentedArray xs) (.segmentedArray ys) := by
  intro before after
  have hj : (before ++ Segment.segmentedArray xs :: after)[before.length]? =
      some (.segmentedArray xs) := by simp
  refine ⟨_, (exec_below hj h).trans ?_⟩
  rw [List.set_append_right _ _ le_rfl, Nat.sub_self, List.set_cons_zero]

/-- One segment after the other. -/
theorem exists_calls_of_forall₂ {xs ys : List (Segment T N)}
    (h : List.Forall₂ (TurnsInto sha256 itemHash) xs ys) (before : List (Segment T N)) :
    ∃ calls, exec (removeFrom sha256 itemHash) (before ++ xs) calls = some (before ++ ys) := by
  induction h generalizing before with
  | nil => exact ⟨[], rfl⟩
  | @cons x y xs ys hxy _ ih =>
    obtain ⟨calls, hcalls⟩ := hxy before xs
    obtain ⟨calls', hcalls'⟩ := ih (before ++ [y])
    rw [List.append_assoc, List.append_assoc] at hcalls'
    exact ⟨calls ++ calls', (exec_append_of hcalls).trans hcalls'⟩

end Calls

/-! ### Two segments with one hash -/

section OneHash

variable {sha256 : Bytes → Bytes32} {encode : T → Bytes}

/-- No item encodes as a string of hashes. -/
def NoHashes (encode : T → Bytes) (items : List T) : Prop :=
  ∀ t ∈ items, (encode t).length % 32 ≠ 0

theorem NoHashes.mono {items items' : List T} (h : NoHashes encode items) (hsub : items' ⊆ items) :
    NoHashes encode items' := fun t ht => h t (hsub ht)

theorem length_hashInput (itemHash : T → Bytes32) (segments : List (Segment T N)) :
    (hashInput sha256 itemHash segments).length = 32 * segments.length := by
  induction segments with
  | nil => rfl
  | cons segment segments ih =>
    rw [hashInput, List.length_append, Bytes32.length_toList, ih, List.length_cons]
    omega

theorem NoHashes.encode_ne {items : List T} (h : NoHashes encode items) {t : T} (ht : t ∈ items)
    {itemHash : T → Bytes32} (segments : List (Segment T N)) :
    encode t ≠ hashInput sha256 itemHash segments := by
  intro heq
  refine h t ht ?_
  rw [heq, length_hashInput]
  exact Nat.mul_mod_right 32 _

theorem forall₂_of_map_eq {α β γ : Type} {f : α → γ} {g : β → γ} {R : α → β → Prop} {xs : List α}
    {ys : List β} (h : xs.map f = ys.map g) (hR : ∀ x ∈ xs, ∀ y ∈ ys, f x = g y → R x y) :
    List.Forall₂ R xs ys := by
  induction xs generalizing ys with
  | nil =>
    rw [List.map_nil, eq_comm, List.map_eq_nil_iff] at h
    rw [h]
    exact .nil
  | cons x xs ih =>
    cases ys with
    | nil => cases h
    | cons y ys =>
      rw [List.map_cons, List.map_cons, List.cons.injEq] at h
      refine .cons (hR x List.mem_cons_self y List.mem_cons_self h.1) (ih h.2 ?_)
      exact fun x hx y hy => hR x (List.mem_cons_of_mem _ hx) y (List.mem_cons_of_mem _ hy)

theorem items_subset_itemsOf {segments : List (Segment T N)} {x : Segment T N}
    (h : x ∈ segments) : x.items ⊆ itemsOf segments := by
  rw [itemsOf_eq_flatMap]
  exact fun t ht => List.mem_flatMap.mpr ⟨x, h, ht⟩

theorem digested_subset_digestedIn {segments : List (Segment T N)} {x : Segment T N}
    (h : x ∈ segments) : x.digested sha256 encode ⊆ digestedIn sha256 encode segments :=
  fun _ hx => mem_digestedIn_of_mem h hx

/-- At the segments of one level, one hash means removals. -/
def RemovesAtLevel (N : ℕ) (sha256 : Bytes → Bytes32) (encode : T → Bytes) (k : ℕ) : Prop :=
  ∀ x y : Segment T N, x.Level k →
    CollisionFree sha256 (x.digested sha256 encode ++ y.digested sha256 encode) →
    NoHashes encode (x.items ++ y.items) →
    x.hash sha256 (fun t => sha256 (encode t)) = y.hash sha256 (fun t => sha256 (encode t)) →
    TurnsInto sha256 (fun t => sha256 (encode t)) x y

/-- Two arrays that digest the same have segments with the same hashes. -/
theorem RemovesAtLevel.exists_calls {k : ℕ} (h : RemovesAtLevel N sha256 encode k)
    {xs ys : List (Segment T N)} (hlevel : ∀ x ∈ xs, x.Level k)
    (hfree : CollisionFree sha256
      (digestedIn sha256 encode xs ++ digestedIn sha256 encode ys))
    (hsize : NoHashes encode (itemsOf xs ++ itemsOf ys))
    (heq : hashInput sha256 (fun t => sha256 (encode t)) xs =
      hashInput sha256 (fun t => sha256 (encode t)) ys) :
    ∃ calls, exec (removeFrom sha256 fun t => sha256 (encode t)) xs calls = some ys := by
  refine exists_calls_of_forall₂ (forall₂_of_map_eq (map_hash_eq_of_hashInput_eq heq) ?_) []
  intro x hx y hy heq
  refine h x y (hlevel x hx) (hfree.mono_append (digested_subset_digestedIn hx)
    (digested_subset_digestedIn hy)) (hsize.mono (List.append_subset.mpr ⟨?_, ?_⟩)) heq
  · exact List.Subset.trans (items_subset_itemsOf hx) (List.subset_append_left _ _)
  · exact List.Subset.trans (items_subset_itemsOf hy) (List.subset_append_right _ _)

/-- **Two segments with one hash**, the first of which has nothing removed, differ in what
calls can remove.  The induction is on the level of the first. -/
theorem removesAtLevel (hinj : Function.Injective encode) (k : ℕ) :
    RemovesAtLevel N sha256 encode k := by
  induction k with
  | zero =>
    intro x y hx hfree hsize heq
    cases x with
    | segmentedArray xs => exact hx.elim
    | unknown hash => exact hx.elim
    | item t =>
      cases y with
      | unknown hash =>
        obtain rfl : (Segment.item t : Segment T N).hash sha256 _ = hash := heq
        exact .unknown _
      | item u =>
        have hencode : encode t = encode u := hfree _ (by simp [Segment.digested]) _
          (by simp [Segment.digested]) heq
        rw [hinj hencode]
        exact .refl _
      | segmentedArray ys =>
        refine absurd (hfree _ (by simp [Segment.digested]) _ (by simp [Segment.digested]) heq) ?_
        exact hsize.encode_ne (by simp [Segment.items]) ys
  | succ k ih =>
    intro x y hx hfree hsize heq
    cases x with
    | item t => exact hx.elim
    | unknown hash => exact hx.elim
    | segmentedArray xs =>
      cases y with
      | unknown hash =>
        obtain rfl : (Segment.segmentedArray xs).hash sha256 _ = hash := heq
        exact .unknown _
      | item u =>
        refine absurd (hfree _ (by simp [Segment.digested]) _ (by simp [Segment.digested])
          heq.symm) ?_
        exact hsize.encode_ne (by simp [Segment.items]) xs
      | segmentedArray ys =>
        have hinput := hfree _ (by simp [Segment.digested]) _ (by simp [Segment.digested]) heq
        rw [Segment.digested, Segment.digested] at hfree
        rw [Segment.items, Segment.items] at hsize
        obtain ⟨calls, hcalls⟩ := ih.exists_calls hx.2.2
          (hfree.mono_append (List.subset_cons_self _ _) (List.subset_cons_self _ _)) hsize hinput
        exact .segmentedArray hcalls

end OneHash

/-- **The root hash admits removals only.**  Segments have two items or more, different items
have different encodings, and none of the encodings has a length that is divisible by that of a
hash.  If no two different strings digested have one digest, then an array has the root hash of
the array of a vector exactly if some calls of `remove_segment` make it of that array; and then
its items are some of the vector's, in order. -/
theorem root_hash_admits_removals [Hashable T] (hN : 2 ≤ N)
    (hinj : Function.Injective (Hashable.encode (T := T))) (sha256 : Bytes → Bytes32) (v : List T) :
    ∃ a : SegmentedArray T N, SegmentedArray.fromVec v = some a ∧ ∀ b : SegmentedArray T N,
      CollisionFree sha256
          (a.digested sha256 Hashable.encode ++ b.digested sha256 Hashable.encode) →
        NoHashes Hashable.encode (v ++ b.items) →
        (b.hash sha256 (Hashable.hash sha256) = a.hash sha256 (Hashable.hash sha256) ↔
          ∃ calls, exec (removeAt sha256 (Hashable.hash sha256)) a calls = some b) ∧
        (b.hash sha256 (Hashable.hash sha256) = a.hash sha256 (Hashable.hash sha256) →
          b.items.Sublist v) := by
  obtain ⟨a, ha⟩ := SegmentedArray.fromVec_isSome hN v
  obtain ⟨k, hk, -, -⟩ := groupLoop_eq_some ha
  have hlevel : ∀ x ∈ a.segments, x.Level k := by
    rw [hk]
    exact level_iterate_regroup (by omega) v k
  have hitems : a.items = v := by rw [SegmentedArray.items, hk, itemsOf_iterate_regroup]
  refine ⟨a, ha, fun b hfree hsize => ?_⟩
  rw [← hitems] at hsize ⊢
  have hcalls : b.hash sha256 (Hashable.hash sha256) = a.hash sha256 (Hashable.hash sha256) →
      ∃ calls, exec (removeAt sha256 (Hashable.hash sha256)) a calls = some b := by
    intro heq
    have hinput := hfree _ (List.mem_append_left _ List.mem_cons_self) _
      (List.mem_append_right _ List.mem_cons_self) heq.symm
    obtain ⟨calls, hcalls⟩ := (removesAtLevel hinj k).exists_calls hlevel
      (hfree.mono_append (List.subset_cons_self _ _) (List.subset_cons_self _ _)) hsize hinput
    exact ⟨calls, exec_removeAt_mk hcalls⟩
  have hkept : ∀ calls, exec (removeAt sha256 (Hashable.hash sha256)) a calls = some b →
      b.hash sha256 (Hashable.hash sha256) = a.hash sha256 (Hashable.hash sha256) ∧
        b.leaves.Sublist a.leaves := by
    intro calls h
    refine invariant_of_exec (I := fun c : SegmentedArray T N =>
      c.hash sha256 (Hashable.hash sha256) = a.hash sha256 (Hashable.hash sha256) ∧
        c.leaves.Sublist a.leaves) (fun c r c' hc hstep => ?_) h ⟨rfl, .refl _⟩
    obtain ⟨hhash, hleaves⟩ := removeAt_spec hstep
    rw [hhash, hleaves]
    exact ⟨hc.1, List.filter_sublist.trans hc.2⟩
  refine ⟨⟨hcalls, ?_⟩, fun heq => ?_⟩
  · rintro ⟨calls, h⟩
    exact (hkept calls h).1
  obtain ⟨calls, h⟩ := hcalls heq
  rw [← a.map_snd_leaves, ← b.map_snd_leaves]
  exact (hkept calls h).2.map Prod.snd

/-! ### One item and a hash -/

/-- The array of the three blobs, whole and with its last nested array removed. -/
def blobsWhole : SegmentedArray Blob 2 :=
  ⟨[.segmentedArray [.item ⟨[1]⟩, .item ⟨[2]⟩], .segmentedArray [.item ⟨[3]⟩]]⟩

def blobsLess : SegmentedArray Blob 2 :=
  ⟨[.segmentedArray [.item ⟨[1]⟩, .item ⟨[2]⟩],
    .unknown (realSha256 (realSha256 [3]).toList)]⟩

theorem collisionFree_blobsLess : CollisionFree realSha256
    (blobsWhole.digested realSha256 Hashable.encode ++
      blobsLess.digested realSha256 Hashable.encode) := by
  refine collisionFree_of_nodup [[1], [2], [3], (realSha256 [3]).toList,
    (realSha256 [1]).toList ++ (realSha256 [2]).toList,
    (realSha256 ((realSha256 [1]).toList ++ (realSha256 [2]).toList)).toList ++
      (realSha256 (realSha256 [3]).toList).toList] ?_ (by decide +kernel)
  simp [blobsWhole, blobsLess, SegmentedArray.digested, digestedIn, Segment.digested, hashInput,
    Segment.hash, Hashable.encode]

theorem hash_blobsLess : blobsLess.hash realSha256 (Hashable.hash realSha256) =
    blobsWhole.hash realSha256 (Hashable.hash realSha256) := by
  simp [blobsWhole, blobsLess, SegmentedArray.hash, hashInput, Segment.hash, Hashable.hash,
    Hashable.encode]

theorem noHashes_blobsLess :
    NoHashes (Hashable.encode (T := Blob)) (threeBlobs ++ blobsLess.items) := by
  simp [NoHashes, threeBlobs, blobsLess, SegmentedArray.items, itemsOf, Segment.items,
    Hashable.encode]

/-- What is left of three blobs. -/
theorem root_hash_admits_removals_blobs :
    SegmentedArray.fromVec threeBlobs = some blobsWhole ∧
      (∃ calls, exec (removeAt realSha256 (Hashable.hash realSha256)) blobsWhole calls =
        some blobsLess) ∧ blobsLess.items.Sublist threeBlobs := by
  obtain ⟨a, ha, h⟩ := root_hash_admits_removals (N := 2) (by norm_num)
    Blob.encode_injective realSha256 threeBlobs
  obtain rfl : a = blobsWhole := Option.some.inj (ha.symm.trans fromVec_threeBlobs)
  obtain ⟨hcalls, hitems⟩ := h blobsLess collisionFree_blobsLess noHashes_blobsLess
  exact ⟨fromVec_threeBlobs, hcalls.mp hash_blobsLess, hitems hash_blobsLess⟩

end Tewta
