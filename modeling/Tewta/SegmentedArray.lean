import Mathlib.Data.List.Basic
import Tewta.Hash
import Tewta.Lib.Transition

/-!
# Segmented arrays

A segmented array is a list of segments, each an item, a nested segmented
array, or the hash of something that was removed.  `hash` digests the
concatenation of the hashes of the segments, and an unknown segment answers
with the hash it kept, so replacing a segment by its hash changes nothing above
it.

`fromVec` builds the array of a vector bottom up: as long as there are more
than `N` segments they are regrouped `N` at a time.  The loop has no counter in
the sources, so here it counts the rounds it is given; `fromVec` gives it one
round more than there are items, which is enough for every `N ≥ 2`
(`fromVec_isSome`).
-/

namespace Tewta

/-- `Segment<T, N>`; the nested array is kept as its list of segments. -/
inductive Segment (T : Type) (N : ℕ)
  | item (t : T)
  | segmentedArray (segments : List (Segment T N))
  | unknown (hash : Bytes32)

structure SegmentedArray (T : Type) (N : ℕ) where
  segments : List (Segment T N)

variable {T : Type} {N : ℕ}

/-! ### Hashing -/

section Hash

variable (sha256 : Bytes → Bytes32) (itemHash : T → Bytes32)

mutual

/-- `impl Hash for Segment`. -/
def Segment.hash : Segment T N → Bytes32
  | .item t => itemHash t
  | .segmentedArray segments => sha256 (hashInput segments)
  | .unknown hash => hash

/-- What `impl Hash for SegmentedArray` feeds to its hasher, segment by segment. -/
def hashInput : List (Segment T N) → Bytes
  | [] => []
  | segment :: segments => (Segment.hash segment).toList ++ hashInput segments

end

/-- `impl Hash for SegmentedArray`. -/
def SegmentedArray.hash (array : SegmentedArray T N) : Bytes32 :=
  sha256 (hashInput sha256 itemHash array.segments)

/-- Only the hashes of the segments enter the hash of an array. -/
theorem hashInput_eq_flatMap (segments : List (Segment T N)) :
    hashInput sha256 itemHash segments =
      (segments.map (Segment.hash sha256 itemHash)).flatMap Bytes32.toList := by
  induction segments with
  | nil => rfl
  | cons segment segments ih => rw [hashInput, ih, List.map_cons, List.flatMap_cons]

end Hash

/-! ### Items -/

mutual

/-- `Segment::items`. -/
def Segment.items : Segment T N → List T
  | .item t => [t]
  | .segmentedArray segments => itemsOf segments
  | .unknown _ => []

/-- The loop of `SegmentedArray::items`. -/
def itemsOf : List (Segment T N) → List T
  | [] => []
  | segment :: segments => Segment.items segment ++ itemsOf segments

end

/-- `impl From<SegmentedArray<T, N>> for Vec<T>`. -/
def SegmentedArray.items (array : SegmentedArray T N) : List T := itemsOf array.segments

/-! ### Building an array -/

/-- The inner loops of `From<Vec<T>>`: one segment and up to `N - 1` more, again
and again. -/
def groups {α : Type} (N : ℕ) : List α → List (List α)
  | [] => []
  | segment :: rest => (segment :: rest.take (N - 1)) :: groups N (rest.drop (N - 1))
  termination_by segments => segments.length
  decreasing_by
    rw [List.length_drop, List.length_cons]
    omega

/-- One round of the outer loop. -/
def regroup (segments : List (Segment T N)) : List (Segment T N) :=
  (groups N segments).map .segmentedArray

/-- The outer loop of `From<Vec<T>>`, for a number of rounds. -/
def groupLoop : ℕ → List (Segment T N) → Option (SegmentedArray T N)
  | 0, _ => none
  | rounds + 1, segments =>
    if segments.length ≤ N then some ⟨segments⟩ else groupLoop rounds (regroup segments)

/-- `impl From<Vec<T>> for SegmentedArray<T, N>`. -/
def SegmentedArray.fromVec (items : List T) : Option (SegmentedArray T N) :=
  groupLoop (items.length + 1) (items.map .item)

theorem groups_nil {α : Type} (N : ℕ) : groups N ([] : List α) = [] := by rw [groups]

theorem groups_cons {α : Type} (N : ℕ) (a : α) (l : List α) :
    groups N (a :: l) = (a :: l.take (N - 1)) :: groups N (l.drop (N - 1)) := by rw [groups]

theorem flatten_groups {α : Type} (N : ℕ) (l : List α) : (groups N l).flatten = l := by
  induction hn : l.length using Nat.strong_induction_on generalizing l with
  | _ n ih =>
    cases l with
    | nil => rw [groups_nil]; rfl
    | cons a l =>
      have hlt : (l.drop (N - 1)).length < n := by
        subst hn
        rw [List.length_drop, List.length_cons]
        omega
      rw [groups_cons, List.flatten_cons, ih _ hlt _ rfl, List.cons_append, List.take_append_drop]

/-- Groups of two or more are fewer than what they group, and no more. -/
theorem groups_length_lt {α : Type} {N : ℕ} (hN : 2 ≤ N) (l : List α) :
    (groups N l).length ≤ l.length ∧ (1 < l.length → (groups N l).length < l.length) := by
  induction hn : l.length using Nat.strong_induction_on generalizing l with
  | _ n ih =>
    cases l with
    | nil => subst hn; rw [groups_nil]; simp
    | cons a l =>
      have hdrop : (l.drop (N - 1)).length = l.length - (N - 1) := List.length_drop
      have hlt : (l.drop (N - 1)).length < n := by
        subst hn
        rw [hdrop, List.length_cons]
        omega
      have := (ih _ hlt _ rfl).1
      rw [groups_cons, List.length_cons]
      subst hn
      rw [List.length_cons] at *
      omega

/-- **The loop ends** for every segment size of two or more. -/
theorem groupLoop_isSome (hN : 2 ≤ N) :
    ∀ (rounds : ℕ) (segments : List (Segment T N)), segments.length < rounds →
      ∃ array, groupLoop rounds segments = some array := by
  intro rounds
  induction rounds with
  | zero => intro segments h; exact absurd h (Nat.not_lt_zero _)
  | succ rounds ih =>
    intro segments h
    rw [groupLoop]
    split
    · exact ⟨_, rfl⟩
    · rename_i hlen
      refine ih _ ?_
      rw [regroup, List.length_map]
      have := (groups_length_lt hN segments).2 (by omega)
      omega

theorem SegmentedArray.fromVec_isSome (hN : 2 ≤ N) (items : List T) :
    ∃ array : SegmentedArray T N, SegmentedArray.fromVec items = some array :=
  groupLoop_isSome hN _ _ (by rw [List.length_map]; exact Nat.lt_succ_self _)

theorem groups_length_congr {α β : Type} (N : ℕ) {l : List α} {m : List β}
    (h : l.length = m.length) : (groups N l).length = (groups N m).length := by
  induction hn : l.length using Nat.strong_induction_on generalizing l m with
  | _ n ih =>
    cases l with
    | nil =>
      rw [List.length_nil, eq_comm, List.length_eq_zero_iff] at h
      rw [h, groups_nil, groups_nil]
      rfl
    | cons a l =>
      cases m with
      | nil => simp at h
      | cons b m =>
        have hdrop : (l.drop (N - 1)).length = l.length - (N - 1) := List.length_drop
        have hdrop' : (m.drop (N - 1)).length = m.length - (N - 1) := List.length_drop
        simp only [List.length_cons] at h hn
        have hrest : (groups N (l.drop (N - 1))).length = (groups N (m.drop (N - 1))).length :=
          ih (l.drop (N - 1)).length (by omega) (by omega) rfl
        rw [groups_cons, groups_cons, List.length_cons, List.length_cons, hrest]

/-- How many rounds the loop makes of a list of `n` segments. -/
def rounds (N : ℕ) : ℕ → ℕ → ℕ
  | 0, _ => 0
  | limit + 1, n => if n ≤ N then 0 else rounds N limit (groups N (List.replicate n ())).length + 1

/-- What the loop returns is the segments after a number of rounds that depends
on how many there are. -/
theorem exists_iterate_of_groupLoop {limit : ℕ} {segments : List (Segment T N)}
    {array : SegmentedArray T N} (h : groupLoop limit segments = some array) :
    ∃ k, array.segments = regroup^[k] segments ∧ k = rounds N limit segments.length := by
  induction limit generalizing segments with
  | zero => cases h
  | succ limit ih =>
    rw [groupLoop] at h
    rw [rounds]
    split at h
    · rename_i hlen
      cases h
      exact ⟨0, rfl, by rw [if_pos hlen]⟩
    · rename_i hlen
      obtain ⟨k, hk, hkr⟩ := ih h
      have hgroups : (regroup segments).length =
          (groups N (List.replicate segments.length ())).length := by
        rw [regroup, List.length_map]
        exact groups_length_congr N (by rw [List.length_replicate])
      exact ⟨k + 1, hk, by rw [if_neg hlen, hkr, hgroups]⟩

end Tewta
