import Tewta.SegmentedArray

/-!
# Removal keeps the hash

A `Removal` names a nested array by the indices that lead to it and a segment
of it; `removeAt` is `remove_segment` called there.  `removals_keep_hash` is
about any run of such calls: the root hash is what it was, and the items are
those of the first array that do not lie beneath a removed segment, in order.

To say which items those are, `Segment.leaves` lists the items together with
the indices that lead to them.  Removal never moves a segment, so the places
keep their names, and one call filters the list by one prefix
(`leavesFrom_removeIn`).
-/

namespace Tewta

open Transition

variable {T : Type} {N : ℕ}

section Remove

variable (sha256 : Bytes → Bytes32) (itemHash : T → Bytes32)

/-- `SegmentedArray::remove_segment`; an index out of range panics. -/
def removeSegment (segments : List (Segment T N)) (i : ℕ) : Option (List (Segment T N)) :=
  match segments[i]? with
  | some segment => some (segments.set i (.unknown (segment.hash sha256 itemHash)))
  | none => none

/-- `remove_segment` on the array the indices of `path` lead to. -/
def removeIn : List ℕ → ℕ → List (Segment T N) → Option (List (Segment T N))
  | [], i, segments => removeSegment sha256 itemHash segments i
  | j :: path, i, segments =>
    match segments[j]? with
    | some (.segmentedArray inner) =>
      (removeIn path i inner).map fun inner' => segments.set j (.segmentedArray inner')
    | _ => none

end Remove

/-- One call: the array it is made on and the segment it removes. -/
structure Removal where
  path : List ℕ
  index : ℕ

/-- The place of the segment a call removes. -/
def Removal.place (r : Removal) : List ℕ := r.path ++ [r.index]

def removeAt (sha256 : Bytes → Bytes32) (itemHash : T → Bytes32) (array : SegmentedArray T N)
    (r : Removal) : Option (SegmentedArray T N) :=
  (removeIn sha256 itemHash r.path r.index array.segments).map SegmentedArray.mk

/-! ### Places of items -/

mutual

/-- The items beneath a segment, each with the indices that lead to it. -/
def Segment.leaves : Segment T N → List (List ℕ × T)
  | .item t => [([], t)]
  | .segmentedArray segments => leavesFrom 0 segments
  | .unknown _ => []

def leavesFrom (i : ℕ) : List (Segment T N) → List (List ℕ × T)
  | [] => []
  | segment :: segments =>
    (Segment.leaves segment).map (fun l => (i :: l.1, l.2)) ++ leavesFrom (i + 1) segments

end

def SegmentedArray.leaves (array : SegmentedArray T N) : List (List ℕ × T) :=
  leavesFrom 0 array.segments

mutual

theorem Segment.map_snd_leaves : ∀ segment : Segment T N,
    segment.leaves.map Prod.snd = segment.items
  | .item t => rfl
  | .segmentedArray segments => by
    rw [Segment.leaves, Segment.items]
    exact map_snd_leavesFrom segments 0
  | .unknown _ => rfl

theorem map_snd_leavesFrom : ∀ (segments : List (Segment T N)) (i : ℕ),
    (leavesFrom i segments).map Prod.snd = itemsOf segments
  | [], _ => rfl
  | segment :: segments, i => by
    rw [leavesFrom, itemsOf, List.map_append, List.map_map, map_snd_leavesFrom segments (i + 1),
      ← Segment.map_snd_leaves segment]
    rfl

end

/-- Forgetting the places gives the items, as `Vec::from` lists them. -/
theorem SegmentedArray.map_snd_leaves (array : SegmentedArray T N) :
    array.leaves.map Prod.snd = array.items := map_snd_leavesFrom array.segments 0

theorem exists_cons_of_mem_leavesFrom {segments : List (Segment T N)} {i : ℕ} {l : List ℕ × T}
    (h : l ∈ leavesFrom i segments) : ∃ k q, l.1 = k :: q ∧ i ≤ k := by
  induction segments generalizing i with
  | nil => simp [leavesFrom] at h
  | cons segment segments ih =>
    rw [leavesFrom, List.mem_append] at h
    rcases h with h | h
    · obtain ⟨l', -, rfl⟩ := List.mem_map.mp h
      exact ⟨i, l'.1, rfl, le_refl i⟩
    · obtain ⟨k, q, hl, hk⟩ := ih h
      exact ⟨k, q, hl, by omega⟩

/-- Is an item's place outside the segment at `place`? -/
def outside (place : List ℕ) (l : List ℕ × T) : Bool := !place.isPrefixOf l.1

theorem outside_nil (l : List ℕ × T) : outside [] l = false := by
  simp [outside]

theorem outside_cons_self (i : ℕ) (place : List ℕ) (l : List ℕ × T) :
    outside (i :: place) (i :: l.1, l.2) = outside place l := by
  simp [outside, List.isPrefixOf]

theorem outside_cons_of_ne {i k : ℕ} (h : i ≠ k) (place q : List ℕ) (t : T) :
    outside (i :: place) (k :: q, t) = true := by
  simp [outside, List.isPrefixOf, h]

/-- **Replacing one segment by one with fewer leaves** filters the leaves of the
list by the place of that segment. -/
theorem leavesFrom_set {segments : List (Segment T N)} {i j : ℕ} (place : List ℕ)
    {old new : Segment T N} (hj : segments[j]? = some old)
    (hl : new.leaves = old.leaves.filter (outside place)) :
    leavesFrom i (segments.set j new) =
      (leavesFrom i segments).filter (outside ((i + j) :: place)) := by
  induction segments generalizing i j with
  | nil => simp at hj
  | cons segment segments ih =>
    cases j with
    | zero =>
      simp only [List.getElem?_cons_zero, Option.some.injEq] at hj
      subst hj
      have htail : (leavesFrom (i + 1) segments).filter (outside (i :: place))
          = leavesFrom (i + 1) segments := by
        refine List.filter_eq_self.mpr (fun l hmem => ?_)
        obtain ⟨k, q, hk, hle⟩ := exists_cons_of_mem_leavesFrom hmem
        obtain ⟨p, t⟩ := l
        cases hk
        exact outside_cons_of_ne (by omega) place q t
      rw [List.set_cons_zero, leavesFrom, leavesFrom, List.filter_append, Nat.add_zero i, htail, hl,
        List.filter_map]
      refine congrArg (· ++ _) (congrArg _ (List.filter_congr fun l _ => ?_))
      exact (outside_cons_self i place l).symm
    | succ j =>
      rw [List.getElem?_cons_succ] at hj
      have hhead : (segment.leaves.map (fun l => (i :: l.1, l.2))).filter
          (outside ((i + (j + 1)) :: place)) = segment.leaves.map (fun l => (i :: l.1, l.2)) := by
        refine List.filter_eq_self.mpr (fun l hmem => ?_)
        obtain ⟨l', -, rfl⟩ := List.mem_map.mp hmem
        exact outside_cons_of_ne (by omega) place l'.1 l'.2
      rw [List.set_cons_succ, leavesFrom, leavesFrom, List.filter_append, hhead, ih hj,
        show i + 1 + j = i + (j + 1) by omega]

/-! ### One call -/

variable {sha256 : Bytes → Bytes32} {itemHash : T → Bytes32}

theorem hashInput_set {segments : List (Segment T N)} {j : ℕ} {old new : Segment T N}
    (hj : segments[j]? = some old) (h : new.hash sha256 itemHash = old.hash sha256 itemHash) :
    hashInput sha256 itemHash (segments.set j new) = hashInput sha256 itemHash segments := by
  rw [hashInput_eq_flatMap, hashInput_eq_flatMap, List.map_set, h]
  refine congrArg (List.flatMap Bytes32.toList) (List.ext_getElem? fun k => ?_)
  rw [List.getElem?_set, List.getElem?_map]
  split
  · rename_i hjk
    subst hjk
    rw [hj]
    simp [(List.getElem?_eq_some_iff.mp hj).1]
  · rfl

/-- A removed segment has the hash it had and no items. -/
theorem removeSegment_eq_some {segments segments' : List (Segment T N)} {i : ℕ}
    (h : removeSegment sha256 itemHash segments i = some segments') :
    ∃ segment, segments[i]? = some segment ∧
      segments' = segments.set i (.unknown (segment.hash sha256 itemHash)) := by
  rw [removeSegment] at h
  cases hs : segments[i]? with
  | none => rw [hs] at h; cases h
  | some segment =>
    rw [hs] at h
    exact ⟨segment, rfl, (Option.some.inj h).symm⟩

/-- **One call keeps the hash** of every array above it and removes exactly the
items beneath the segment it was called on. -/
theorem removeIn_spec : ∀ (path : List ℕ) (i : ℕ) (segments segments' : List (Segment T N)),
    removeIn sha256 itemHash path i segments = some segments' →
      hashInput sha256 itemHash segments' = hashInput sha256 itemHash segments ∧
      leavesFrom 0 segments' = (leavesFrom 0 segments).filter (outside (path ++ [i])) := by
  intro path
  induction path with
  | nil =>
    intro i segments segments' h
    obtain ⟨segment, hs, rfl⟩ := removeSegment_eq_some h
    refine ⟨hashInput_set hs (by rw [Segment.hash]), ?_⟩
    have hl : (Segment.unknown (segment.hash sha256 itemHash) : Segment T N).leaves
        = segment.leaves.filter (outside []) := by
      rw [Segment.leaves, List.filter_eq_nil_iff.mpr fun l _ => by simp [outside_nil]]
    rw [leavesFrom_set _ hs hl, Nat.zero_add]
    rfl
  | cons j path ih =>
    intro i segments segments' h
    rw [removeIn] at h
    split at h
    · rename_i inner hs
      obtain ⟨inner', hi, rfl⟩ := Option.map_eq_some_iff.mp h
      obtain ⟨hhash, hleaves⟩ := ih i inner inner' hi
      refine ⟨hashInput_set hs (by rw [Segment.hash, Segment.hash, hhash]), ?_⟩
      rw [leavesFrom_set (path ++ [i]) hs (by rw [Segment.leaves, Segment.leaves, hleaves]),
        Nat.zero_add]
      rfl
    · cases h

theorem removeAt_spec {array array' : SegmentedArray T N} {r : Removal}
    (h : removeAt sha256 itemHash array r = some array') :
    array'.hash sha256 itemHash = array.hash sha256 itemHash ∧
      array'.leaves = array.leaves.filter (outside r.place) := by
  obtain ⟨segments', hs, rfl⟩ := Option.map_eq_some_iff.mp h
  obtain ⟨hhash, hleaves⟩ := removeIn_spec r.path r.index array.segments segments' hs
  exact ⟨congrArg sha256 hhash, hleaves⟩

/-! ### Any number of calls -/

/-- **Removal keeps the hash.**  After any calls in a row, each on an array that
is there with an index in range, the root hash is unchanged and the items are
the ones whose place lies outside every removed segment, in the order they had. -/
theorem removals_keep_hash (array array' : SegmentedArray T N) (calls : List Removal)
    (h : exec (removeAt sha256 itemHash) array calls = some array') :
    array'.hash sha256 itemHash = array.hash sha256 itemHash ∧
      array.items = array.leaves.map Prod.snd ∧
      array'.items =
        (array.leaves.filter fun l => calls.all fun r => outside r.place l).map Prod.snd := by
  have hrun : array'.hash sha256 itemHash = array.hash sha256 itemHash ∧
      array'.leaves = array.leaves.filter fun l => calls.all fun r => outside r.place l := by
    induction calls generalizing array with
    | nil => cases h; simp
    | cons r calls ih =>
      obtain ⟨middle, hm, h⟩ := exec_cons_eq_some.mp h
      obtain ⟨hhash, hleaves⟩ := removeAt_spec hm
      obtain ⟨hhash', hleaves'⟩ := ih middle h
      refine ⟨hhash'.trans hhash, ?_⟩
      rw [hleaves', hleaves, List.filter_filter]
      refine List.filter_congr fun l _ => ?_
      rw [List.all_cons, Bool.and_comm]
  exact ⟨hrun.1, array.map_snd_leaves.symm, by rw [← hrun.2, array'.map_snd_leaves]⟩

/-- A segment of a nested array goes, then the nested array itself, then the
hash that stands for it. -/
theorem removals_keep_hash_nested :
    ∃ array' : SegmentedArray Bytes 2,
      exec (removeAt realSha256 realSha256)
        ⟨[.segmentedArray [.item [1], .item [2]], .item [3]]⟩ [⟨[0], 1⟩, ⟨[], 0⟩, ⟨[], 0⟩]
          = some array' ∧
      array'.hash realSha256 realSha256 =
        SegmentedArray.hash (N := 2) realSha256 realSha256
          ⟨[.segmentedArray [.item [1], .item [2]], .item [3]]⟩ ∧
      array'.items = [[3]] := by
  refine ⟨_, rfl, ?_⟩
  obtain ⟨hhash, -, hitems⟩ := removals_keep_hash
    (⟨[.segmentedArray [.item [1], .item [2]], .item [3]]⟩ : SegmentedArray Bytes 2) _
    [⟨[0], 1⟩, ⟨[], 0⟩, ⟨[], 0⟩] rfl
  exact ⟨hhash, hitems.trans rfl⟩

end Tewta
