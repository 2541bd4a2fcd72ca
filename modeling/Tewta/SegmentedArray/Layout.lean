import Mathlib.Data.Nat.Digits.Lemmas
import Mathlib.Order.Bounds.Basic
import Tewta.SegmentedArray

/-!
# The layout of a segmented array

The array of a vector is a tree whose items all lie at one depth.  The rounds of `fromVec`
build it from the items up: what is at place `i` after a round is at place `i % N` of the
group `i / N` after the next one.  So the way from the root to an item is the digits of its
index in base `N`.
-/

namespace Tewta

variable {T : Type} {N : ℕ}

/-- What a path leads to, from a segment down. -/
def Segment.follow : List ℕ → Segment T N → Option (Segment T N)
  | [], segment => some segment
  | i :: path, .segmentedArray segments => segments[i]?.bind (follow path)
  | _ :: _, _ => none

/-- What a path leads to, from the root. -/
def SegmentedArray.follow (array : SegmentedArray T N) (path : List ℕ) : Option (Segment T N) :=
  Segment.follow path (.segmentedArray array.segments)

/-! ### Groups -/

theorem length_groups (hN : 0 < N) {α : Type} (l : List α) (m : ℕ) :
    (groups N l).length ≤ m ↔ l.length ≤ m * N := by
  induction hn : l.length using Nat.strong_induction_on generalizing l m with
  | _ n ih =>
    cases l with
    | nil =>
      subst hn
      rw [groups_nil]
      simp
    | cons a l =>
      rw [List.length_cons] at hn
      have hdrop : (l.drop (N - 1)).length = l.length - (N - 1) := List.length_drop
      rw [groups_cons, List.length_cons]
      cases m with
      | zero =>
        rw [Nat.zero_mul]
        omega
      | succ m =>
        have hrest := ih (l.drop (N - 1)).length (by omega) (l.drop (N - 1)) m rfl
        rw [Nat.succ_mul]
        omega

theorem mem_groups (hN : 0 < N) {α : Type} {l group : List α} (h : group ∈ groups N l) :
    1 ≤ group.length ∧ group.length ≤ N ∧ ∀ a ∈ group, a ∈ l := by
  induction hn : l.length using Nat.strong_induction_on generalizing l with
  | _ n ih =>
    cases l with
    | nil =>
      rw [groups_nil] at h
      cases h
    | cons a l =>
      rw [List.length_cons] at hn
      have hdrop : (l.drop (N - 1)).length = l.length - (N - 1) := List.length_drop
      rw [groups_cons] at h
      rcases List.mem_cons.mp h with rfl | h
      · refine ⟨?_, ?_, fun b hb => ?_⟩
        · rw [List.length_cons]
          omega
        · rw [List.length_cons, List.length_take]
          omega
        · rcases List.mem_cons.mp hb with rfl | hb
          · exact List.mem_cons_self
          · exact List.mem_cons_of_mem _ (List.mem_of_mem_take hb)
      · obtain ⟨hpos, hle, hmem⟩ := ih _ (by omega) h rfl
        exact ⟨hpos, hle, fun b hb => List.mem_cons_of_mem _ (List.mem_of_mem_drop (hmem b hb))⟩

/-- **Where an element goes** when a list is grouped. -/
theorem getElem?_groups (hN : 0 < N) {α : Type} (l : List α) (i : ℕ) :
    (groups N l)[i / N]?.bind (·[i % N]?) = l[i]? := by
  induction hn : l.length using Nat.strong_induction_on generalizing l i with
  | _ n ih =>
    cases l with
    | nil =>
      rw [groups_nil]
      rfl
    | cons a l =>
      rw [List.length_cons] at hn
      have hdrop : (l.drop (N - 1)).length = l.length - (N - 1) := List.length_drop
      rw [groups_cons]
      by_cases hi : i < N
      · -- in the first group
        rw [Nat.div_eq_of_lt hi, Nat.mod_eq_of_lt hi]
        show (a :: l.take (N - 1))[i]? = _
        cases i with
        | zero => rfl
        | succ i =>
          rw [List.getElem?_cons_succ, List.getElem?_cons_succ]
          exact List.getElem?_take_of_lt (by omega)
      · obtain ⟨j, rfl⟩ : ∃ j, i = j + N := ⟨i - N, by omega⟩
        rw [Nat.add_div_right j hN, Nat.add_mod_right, List.getElem?_cons_succ,
          ih _ (by omega) _ _ rfl, List.getElem?_drop]
        have hsucc : j + N = N - 1 + j + 1 := by omega
        rw [hsucc, List.getElem?_cons_succ]

/-! ### Levels -/

/-- A segment all whose items are at one depth, with one to `N` segments in each array. -/
def Segment.Level : ℕ → Segment T N → Prop
  | 0, .item _ => True
  | k + 1, .segmentedArray segments =>
    1 ≤ segments.length ∧ segments.length ≤ N ∧ ∀ segment ∈ segments, Level k segment
  | _, _ => False

theorem level_iterate_regroup (hN : 0 < N) (v : List T) (k : ℕ) :
    ∀ segment ∈ regroup^[k] (v.map (.item : T → Segment T N)), segment.Level k := by
  induction k with
  | zero =>
    intro segment hmem
    obtain ⟨t, -, rfl⟩ := List.mem_map.mp hmem
    trivial
  | succ k ih =>
    intro segment hmem
    rw [Function.iterate_succ_apply'] at hmem
    obtain ⟨group, hgroup, rfl⟩ := List.mem_map.mp hmem
    obtain ⟨hpos, hle, hsub⟩ := mem_groups hN hgroup
    exact ⟨hpos, hle, fun segment hmem => ih segment (hsub segment hmem)⟩

/-- A path goes down one level with each step. -/
theorem Segment.Level.follow {k : ℕ} {path : List ℕ} {segment target : Segment T N}
    (h : segment.Level k) (hpath : segment.follow path = some target) :
    ∃ j, k = j + path.length ∧ target.Level j := by
  induction path generalizing k segment with
  | nil =>
    rw [Segment.follow] at hpath
    cases hpath
    exact ⟨k, rfl, h⟩
  | cons i path ih =>
    cases segment with
    | item t => cases hpath
    | unknown hash => cases hpath
    | segmentedArray segments =>
      obtain ⟨segment, hget, hpath⟩ := Option.bind_eq_some_iff.mp hpath
      cases k with
      | zero => exact h.elim
      | succ k =>
        obtain ⟨j, hj, hlevel⟩ := ih (h.2.2 segment (List.mem_of_getElem? hget)) hpath
        refine ⟨j, ?_, hlevel⟩
        rw [hj, List.length_cons, Nat.add_assoc]

/-! ### Digits -/

/-- The last digits of a number, the most significant first. -/
def lastDigits (N : ℕ) : ℕ → ℕ → List ℕ
  | 0, _ => []
  | d + 1, i => i / N ^ d % N :: lastDigits N d i

theorem length_lastDigits (d i : ℕ) : (lastDigits N d i).length = d := by
  induction d with
  | zero => rfl
  | succ d ih => rw [lastDigits, List.length_cons, ih]

theorem ofDigits_lastDigits (d i : ℕ) :
    Nat.ofDigits N (lastDigits N d i).reverse = i % N ^ d := by
  induction d with
  | zero => rw [Nat.pow_zero, Nat.mod_one]; rfl
  | succ d ih =>
    rw [lastDigits, List.reverse_cons, Nat.ofDigits_append, ih, List.length_reverse,
      length_lastDigits, Nat.ofDigits_singleton, Nat.mod_pow_succ]

theorem lt_of_mem_lastDigits (hN : 0 < N) {d i x : ℕ} (h : x ∈ lastDigits N d i) : x < N := by
  induction d with
  | zero => cases h
  | succ d ih =>
    rcases List.mem_cons.mp h with rfl | h
    · exact Nat.mod_lt _ hN
    · exact ih h

/-- They are the digits, for a number that has no more. -/
theorem lastDigits_eq (hN : 1 < N) {d i : ℕ} (hi : i < N ^ d) :
    lastDigits N d i = (Nat.digitsAppend N d i).reverse := by
  have hinv := (Nat.setInvOn_digitsAppend_ofDigits hN d).1
  have hmem : (lastDigits N d i).reverse ∈ {L : List ℕ | L.length = d ∧ ∀ x ∈ L, x < N} :=
    ⟨by rw [List.length_reverse, length_lastDigits],
      fun x hx => lt_of_mem_lastDigits (Nat.zero_lt_of_lt hN) (List.mem_reverse.mp hx)⟩
  rw [← Nat.mod_eq_of_lt hi, ← ofDigits_lastDigits, hinv hmem, List.reverse_reverse,
    ofDigits_lastDigits, Nat.mod_eq_of_lt hi]

/-! ### The way to an item -/

/-- **Every round adds a digit**: what was at a place is reached through the digits that the
rounds since then have taken off. -/
theorem follow_iterate_regroup (hN : 0 < N) (segments : List (Segment T N)) (k i : ℕ) :
    (regroup^[k] segments)[i / N ^ k]?.bind (Segment.follow (lastDigits N k i)) =
      segments[i]? := by
  induction k with
  | zero =>
    rw [Nat.pow_zero, Nat.div_one]
    show segments[i]?.bind (fun segment => some segment) = _
    cases segments[i]? <;> rfl
  | succ k ih =>
    have hget : (regroup^[k + 1] segments)[i / N ^ (k + 1)]? =
        (groups N (regroup^[k] segments))[i / N ^ k / N]?.map .segmentedArray := by
      rw [Function.iterate_succ_apply', regroup, List.getElem?_map, Nat.pow_succ,
        Nat.div_div_eq_div_mul]
    rw [hget, ← ih, ← getElem?_groups hN (regroup^[k] segments) (i / N ^ k), lastDigits,
      Option.bind_map, Option.bind_assoc]
    rfl

/-! ### The rounds -/

theorem itemsOf_eq_flatMap (segments : List (Segment T N)) :
    itemsOf segments = segments.flatMap Segment.items := by
  induction segments with
  | nil => rfl
  | cons segment segments ih => rw [itemsOf, ih, List.flatMap_cons]

theorem itemsOf_regroup (segments : List (Segment T N)) :
    itemsOf (regroup segments) = itemsOf segments := by
  have hitems : (fun group : List (Segment T N) => group.flatMap Segment.items) =
      fun group => (Segment.segmentedArray group).items := by
    funext group
    rw [Segment.items, itemsOf_eq_flatMap]
  rw [itemsOf_eq_flatMap, itemsOf_eq_flatMap segments, regroup, List.flatMap_map, ← hitems]
  conv_rhs => rw [← flatten_groups N segments, ← List.flatMap_id, List.flatMap_assoc]
  rfl

theorem itemsOf_iterate_regroup (v : List T) (k : ℕ) :
    itemsOf (regroup^[k] (v.map (.item : T → Segment T N))) = v := by
  induction k with
  | zero =>
    show itemsOf (v.map .item) = v
    induction v with
    | nil => rfl
    | cons t v ih => rw [List.map_cons, itemsOf, ih]; rfl
  | succ k ih => rw [Function.iterate_succ_apply', itemsOf_regroup, ih]

theorem length_iterate_regroup (hN : 0 < N) (segments : List (Segment T N)) (k m : ℕ) :
    (regroup^[k] segments).length ≤ m ↔ segments.length ≤ m * N ^ k := by
  induction k generalizing m with
  | zero => rw [Nat.pow_zero, Nat.mul_one]; rfl
  | succ k ih =>
    rw [Function.iterate_succ_apply', regroup, List.length_map, length_groups hN, ih,
      Nat.mul_assoc, Nat.pow_succ, Nat.mul_comm N]

/-- The loop stops at the first round that leaves no more than `N` segments. -/
theorem groupLoop_eq_some {limit : ℕ} {segments : List (Segment T N)}
    {array : SegmentedArray T N} (h : groupLoop limit segments = some array) :
    ∃ k, array.segments = regroup^[k] segments ∧ array.segments.length ≤ N ∧
      ∀ j < k, N < (regroup^[j] segments).length := by
  induction limit generalizing segments with
  | zero => cases h
  | succ limit ih =>
    rw [groupLoop] at h
    split at h
    · rename_i hlen
      cases h
      exact ⟨0, rfl, hlen, fun j hj => absurd hj (Nat.not_lt_zero j)⟩
    · rename_i hlen
      obtain ⟨k, hk, hle, hbefore⟩ := ih h
      refine ⟨k + 1, hk, hle, fun j hj => ?_⟩
      cases j with
      | zero => exact Nat.lt_of_not_le hlen
      | succ j => exact hbefore j (Nat.lt_of_succ_lt_succ hj)

/-- **The grouping ends** for segments of two or more, and for at most one item. -/
theorem SegmentedArray.grouping_ends_iff (hN : 1 ≤ N) (items : List T) :
    (∃ (limit : ℕ) (array : SegmentedArray T N),
      groupLoop limit (items.map .item) = some array ∧ array.segments.length ≤ N) ↔
      2 ≤ N ∨ items.length ≤ 1 := by
  constructor
  · rintro ⟨limit, array, harray, hle⟩
    by_contra hnot
    obtain ⟨hsmall, hmany⟩ := not_or.mp hnot
    obtain rfl : N = 1 := by omega
    obtain ⟨k, hk, -, -⟩ := groupLoop_eq_some harray
    -- a round puts each segment into an array of its own
    rw [hk, length_iterate_regroup hN, List.length_map, Nat.one_pow] at hle
    omega
  · rintro (htwo | hfew)
    · obtain ⟨array, harray⟩ := SegmentedArray.fromVec_isSome htwo items
      obtain ⟨k, -, hle, -⟩ := groupLoop_eq_some harray
      exact ⟨_, array, harray, hle⟩
    · have hle : (items.map (.item : T → Segment T N)).length ≤ N := by
        rw [List.length_map]
        omega
      exact ⟨1, ⟨items.map .item⟩, if_pos hle, hle⟩

/-- Three items, two to an array. -/
theorem SegmentedArray.grouping_ends_iff_three : ∃ (limit : ℕ) (array : SegmentedArray ℕ 2),
    groupLoop limit ([5, 6, 7].map .item) = some array ∧ array.segments.length ≤ 2 :=
  (SegmentedArray.grouping_ends_iff (by decide) [5, 6, 7]).mpr (Or.inl (Nat.le_refl 2))

/-- Two items, one to an array. -/
theorem SegmentedArray.grouping_never_ends : ¬ ∃ (limit : ℕ) (array : SegmentedArray ℕ 1),
    groupLoop limit ([5, 6].map .item) = some array ∧ array.segments.length ≤ 1 := by
  rintro ⟨limit, array, harray, hle⟩
  obtain ⟨k, hk, -, -⟩ := groupLoop_eq_some harray
  rw [hk, length_iterate_regroup Nat.one_pos, Nat.one_pow] at hle
  exact absurd hle (by decide)

/-- **The layout of the array of a vector.**  It has the items of the vector; there are at
most `N` segments in its root and one to `N` in every nested array; all items lie at the
least depth that has room for them; and each is found by way of the digits of its index. -/
theorem SegmentedArray.fromVec_layout (hN : 2 ≤ N) (v : List T) :
    ∃ (array : SegmentedArray T N) (d : ℕ), SegmentedArray.fromVec v = some array ∧
      array.items = v ∧ array.segments.length ≤ N ∧
      (∀ i path nested, array.follow (i :: path) = some (.segmentedArray nested) →
        1 ≤ nested.length ∧ nested.length ≤ N) ∧
      (∀ path t, array.follow path = some (.item t) → path.length = d) ∧
      IsLeast {d | 1 ≤ d ∧ v.length ≤ N ^ d} d ∧
      ∀ i (hi : i < v.length),
        array.follow (Nat.digitsAppend N d i).reverse = some (.item v[i]) := by
  have hpos : 0 < N := by omega
  obtain ⟨array, harray⟩ := fromVec_isSome hN v
  obtain ⟨k, hk, hle, hbefore⟩ := groupLoop_eq_some harray
  have hlevel : ∀ segment ∈ array.segments, segment.Level k := by
    rw [hk]
    exact level_iterate_regroup hpos v k
  have hlen : v.length ≤ N ^ (k + 1) := by
    rw [hk, length_iterate_regroup hpos, List.length_map] at hle
    rw [Nat.pow_succ, Nat.mul_comm]
    exact hle
  refine ⟨array, k + 1, harray, ?_, hle, ?_, ?_, ⟨⟨Nat.succ_pos k, hlen⟩, ?_⟩, ?_⟩
  · rw [SegmentedArray.items, hk, itemsOf_iterate_regroup]
  · intro i path nested hpath
    obtain ⟨segment, hget, hpath⟩ := Option.bind_eq_some_iff.mp hpath
    obtain ⟨j, -, hnested⟩ := (hlevel segment (List.mem_of_getElem? hget)).follow hpath
    cases j with
    | zero => exact hnested.elim
    | succ j => exact ⟨hnested.1, hnested.2.1⟩
  · intro path t hpath
    cases path with
    | nil => cases hpath
    | cons i path =>
      obtain ⟨segment, hget, hpath⟩ := Option.bind_eq_some_iff.mp hpath
      obtain ⟨j, hj, hitem⟩ := (hlevel segment (List.mem_of_getElem? hget)).follow hpath
      cases j with
      | zero => rw [List.length_cons, hj, Nat.zero_add]
      | succ j => exact hitem.elim
  · intro d ⟨hd, hroom⟩
    by_contra hlt
    obtain ⟨j, rfl⟩ : ∃ j, d = j + 1 := ⟨d - 1, by omega⟩
    have hmany := hbefore j (by omega)
    have hfew : (regroup^[j] (v.map (.item : T → Segment T N))).length ≤ N := by
      rw [length_iterate_regroup hpos, List.length_map, ← Nat.pow_succ']
      exact hroom
    omega
  · intro i hi
    have hdigit : i / N ^ k % N = i / N ^ k := by
      refine Nat.mod_eq_of_lt (Nat.div_lt_of_lt_mul ?_)
      rw [← Nat.pow_succ]
      exact Nat.lt_of_lt_of_le hi hlen
    have hway := follow_iterate_regroup hpos (v.map (.item : T → Segment T N)) k i
    rw [← lastDigits_eq (by omega) (Nat.lt_of_lt_of_le hi hlen), lastDigits, hdigit]
    show array.segments[i / N ^ k]?.bind _ = _
    rw [hk, hway, List.getElem?_map, List.getElem?_eq_getElem hi]
    rfl

/-- Three items, two to an array. -/
theorem SegmentedArray.fromVec_layout_three : ∃ (array : SegmentedArray ℕ 2) (d : ℕ),
    SegmentedArray.fromVec [5, 6, 7] = some array ∧ array.items = [5, 6, 7] ∧
      IsLeast {d | 1 ≤ d ∧ 3 ≤ 2 ^ d} d ∧
      array.follow (Nat.digitsAppend 2 d 2).reverse = some (.item 7) := by
  obtain ⟨array, d, harray, hitems, -, -, -, hd, hway⟩ :=
    SegmentedArray.fromVec_layout (N := 2) (Nat.le_refl 2) [5, 6, 7]
  exact ⟨array, d, harray, hitems, hd, hway 2 (by decide)⟩

end Tewta
