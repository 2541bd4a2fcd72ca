import Mathlib.Algebra.Order.Ring.Nat

/-!
# Vectors that grow

A vector has room for some elements, its capacity.  A push to a vector that is
full allocates a larger one, and fails if that takes more than `isizeMax` bytes.
By how much a capacity grows is left open: `Growth` is any way to do it, and
`Growth.doubling` one of them.

`limit` is the largest capacity that a vector can come to have.  Pushes fail
exactly beyond it (`Vec.extend_eq_none`), and if none does they put the elements
at the end, in their order (`Vec.values_of_extend`).
-/

/-- The most bytes of an allocation. -/
def isizeMax : ℕ := 2 ^ 63 - 1

/-- The next capacity of a vector that is full. -/
structure Growth where
  next : ℕ → ℕ
  lt_next : ∀ capacity, capacity < next capacity

namespace Growth

/-- The capacity doubles, and is four at least. -/
def doubling : Growth where
  next capacity := max 4 (2 * capacity)
  lt_next capacity := by omega

variable (growth : Growth) {size capacity : ℕ}

/-- The largest capacity, for elements of so many bytes. -/
def limit (size capacity : ℕ) : ℕ :=
  if _h : 0 < size ∧ growth.next capacity * size ≤ isizeMax then
    limit size (growth.next capacity)
  else capacity
  termination_by isizeMax - capacity
  decreasing_by
    have hlt := growth.lt_next capacity
    have hle := Nat.le_mul_of_pos_right (growth.next capacity) _h.1
    omega

theorem limit_of_le (hsize : 0 < size) (h : growth.next capacity * size ≤ isizeMax) :
    growth.limit size capacity = growth.limit size (growth.next capacity) := by
  rw [limit, dif_pos ⟨hsize, h⟩]

theorem limit_of_lt (h : isizeMax < growth.next capacity * size) :
    growth.limit size capacity = capacity := by
  rw [limit, dif_neg fun hle => absurd hle.2 (not_le.mpr h)]

theorem le_limit (size capacity : ℕ) : capacity ≤ growth.limit size capacity := by
  induction capacity using limit.induct growth size with
  | case1 capacity h ih =>
    rw [growth.limit_of_le h.1 h.2]
    exact (growth.lt_next capacity).le.trans ih
  | case2 capacity h => rw [limit, dif_neg h]

/-- A vector of the largest capacity is no larger than an allocation may be. -/
theorem limit_mul_le (h : capacity * size ≤ isizeMax) :
    growth.limit size capacity * size ≤ isizeMax := by
  induction capacity using limit.induct growth size with
  | case1 capacity hnext ih =>
    rw [growth.limit_of_le hnext.1 hnext.2]
    exact ih hnext.2
  | case2 capacity hnext => rwa [limit, dif_neg hnext]

/-- The limit of a vector that doubles, from nothing or a single element. -/
theorem limit_doubling {k : ℕ} (hcapacity : capacity ≤ 2) (hsize : 0 < size)
    (hle : 2 ^ (k + 2) * size ≤ isizeMax) (hlt : isizeMax < 2 ^ (k + 3) * size) :
    doubling.limit size capacity = 2 ^ (k + 2) := by
  have hstep : ∀ j, doubling.next (2 ^ (j + 2)) = 2 ^ (j + 3) := by
    intro j
    have hpos := Nat.one_le_two_pow (n := j)
    simp only [doubling, pow_succ]
    omega
  -- the doublings up to the last one
  have hreach : ∀ j ≤ k, doubling.limit size capacity = doubling.limit size (2 ^ (j + 2)) := by
    intro j hj
    induction j with
    | zero =>
      have hfirst : doubling.next capacity = 2 ^ (0 + 2) := by
        simp only [doubling]
        omega
      have hfit : doubling.next capacity * size ≤ isizeMax := by
        rw [hfirst]
        exact (Nat.mul_le_mul_right _ (Nat.pow_le_pow_right Nat.two_pos (by omega))).trans hle
      rw [limit_of_le _ hsize hfit, hfirst]
    | succ j ih =>
      have hfit : doubling.next (2 ^ (j + 2)) * size ≤ isizeMax := by
        rw [hstep]
        exact (Nat.mul_le_mul_right _ (Nat.pow_le_pow_right Nat.two_pos (by omega))).trans hle
      rw [ih (by omega), limit_of_le _ hsize hfit, hstep]
  rw [hreach k le_rfl, limit_of_lt _ (by rw [hstep]; exact hlt)]

end Growth

/-- A vector of elements of `size` bytes. -/
structure Vec (α : Type*) (size : ℕ) where
  values : List α
  capacity : ℕ
  length_le : values.length ≤ capacity
  bytes_le : capacity * size ≤ isizeMax

namespace Vec

variable {α : Type*} {size : ℕ}

def new : Vec α size where
  values := []
  capacity := 0
  length_le := le_rfl
  bytes_le := by simp

/-- A vector of one element, with no room for another. -/
def singleton (a : α) (h : size ≤ isizeMax) : Vec α size where
  values := [a]
  capacity := 1
  length_le := le_rfl
  bytes_le := by rwa [Nat.one_mul]

variable (growth : Growth)

/-- There is none if the vector is full and the next capacity is too large. -/
def push (v : Vec α size) (a : α) : Option (Vec α size) :=
  if h : v.values.length < v.capacity then
    some { values := v.values ++ [a], capacity := v.capacity, bytes_le := v.bytes_le
           length_le := by
             rw [List.length_append, List.length_singleton]
             exact h }
  else if h' : growth.next v.capacity * size ≤ isizeMax then
    some { values := v.values ++ [a], capacity := growth.next v.capacity, bytes_le := h'
           length_le := by
             have hle := v.length_le
             have hlt := growth.lt_next v.capacity
             rw [List.length_append, List.length_singleton]
             omega }
  else none

/-- The elements are pushed one after the other. -/
def extend : Vec α size → List α → Option (Vec α size)
  | v, [] => some v
  | v, a :: as => (v.push growth a).bind (extend · as)

/-- How many elements the vector can come to have. -/
def limit (v : Vec α size) : ℕ := growth.limit size v.capacity

variable {growth} {v v' : Vec α size} {a : α} {as : List α}

theorem length_le_limit (v : Vec α size) (growth : Growth) : v.values.length ≤ v.limit growth :=
  v.length_le.trans (growth.le_limit size v.capacity)

theorem push_eq_some (hsize : 0 < size) (h : v.push growth a = some v') :
    v'.values = v.values ++ [a] ∧ v'.limit growth = v.limit growth := by
  rw [push] at h
  split at h
  · cases h
    exact ⟨rfl, rfl⟩
  · split at h
    · rename_i hnext
      cases h
      exact ⟨rfl, (growth.limit_of_le hsize hnext).symm⟩
    · cases h

/-- **A push fails** at the limit. -/
theorem push_eq_none (hsize : 0 < size) :
    v.push growth a = none ↔ v.values.length = v.limit growth := by
  have hle := v.length_le_limit growth
  rw [push]
  split
  · rename_i hlt
    have hlimit : v.capacity ≤ v.limit growth := growth.le_limit size v.capacity
    exact iff_of_false (by simp) (by omega)
  · rename_i hfull
    have hlength := v.length_le
    split
    · rename_i hnext
      have hlimit : growth.next v.capacity ≤ v.limit growth := by
        rw [limit, growth.limit_of_le hsize hnext]
        exact growth.le_limit size _
      have hlt := growth.lt_next v.capacity
      exact iff_of_false (by simp) (by omega)
    · rename_i hnext
      refine iff_of_true rfl ?_
      rw [limit, growth.limit_of_lt (not_le.mp hnext)]
      omega

theorem extend_cons (v : Vec α size) (a : α) (as : List α) :
    v.extend growth (a :: as) = (v.push growth a).bind (extend growth · as) := rfl

theorem extend_append (v : Vec α size) (as bs : List α) :
    v.extend growth (as ++ bs) = (v.extend growth as).bind (extend growth · bs) := by
  induction as generalizing v with
  | nil => rfl
  | cons a as ih =>
    rw [List.cons_append, extend_cons, extend_cons, Option.bind_assoc]
    exact congrArg _ (funext ih)

/-- Pushing the elements of several lists, one list after the other. -/
theorem foldlM_extend {β : Type*} (f : β → List α) (bs : List β) (v : Vec α size) :
    bs.foldlM (fun v b => v.extend growth (f b)) v = v.extend growth (bs.flatMap f) := by
  induction bs generalizing v with
  | nil => rfl
  | cons b bs ih =>
    rw [List.foldlM_cons, List.flatMap_cons, extend_append]
    exact congrArg _ (funext ih)

theorem values_of_extend (hsize : 0 < size) (h : v.extend growth as = some v') :
    v'.values = v.values ++ as ∧ v'.limit growth = v.limit growth := by
  induction as generalizing v with
  | nil =>
    cases h
    exact ⟨(List.append_nil _).symm, rfl⟩
  | cons a as ih =>
    obtain ⟨u, hu, h⟩ := Option.bind_eq_some_iff.mp h
    obtain ⟨hvalues, hlimit⟩ := push_eq_some hsize hu
    obtain ⟨hvalues', hlimit'⟩ := ih h
    refine ⟨?_, hlimit'.trans hlimit⟩
    rw [hvalues', hvalues, List.append_assoc, List.singleton_append]

/-- **Which pushes fail**: one of them does if there are more elements than the
vector can come to have. -/
theorem extend_eq_none (hsize : 0 < size) :
    v.extend growth as = none ↔ v.limit growth < v.values.length + as.length := by
  induction as generalizing v with
  | nil =>
    refine iff_of_false (by simp [extend]) ?_
    have hle := v.length_le_limit growth
    rw [List.length_nil]
    omega
  | cons a as ih =>
    rw [extend_cons, List.length_cons]
    cases hpush : v.push growth a with
    | none =>
      have hfull := (push_eq_none hsize).mp hpush
      exact iff_of_true rfl (by omega)
    | some u =>
      obtain ⟨hvalues, hlimit⟩ := push_eq_some hsize hpush
      rw [Option.bind_some, ih, hlimit, hvalues, List.length_append, List.length_singleton]
      omega

end Vec
