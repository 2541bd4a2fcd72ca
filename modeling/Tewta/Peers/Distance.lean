import Mathlib.Data.Nat.Log
import Tewta.Lib.ByteString
import Tewta.Peers.Bucket

/-!
# Buckets and the metric

The distance of two ids is their XOR, and the sorts compare it byte by byte.  Read as a
number of 256 bits it has a first digit in base four that is not zero, unless the ids are
equal: the level of `bucket` says where that digit stands, and its id which digit it is.

One byte is a check of the two hundred and fifty-six distances, and the bytes before the
one that decides are equal (`bucketFrom_spec`).  A number has one leading digit, so the
classifier's answer is determined by the number (`bucket_eq_some_iff`), and the order of
the numbers is that of the buckets.
-/

namespace Tewta

open ByteString

namespace PeerID

/-- The distance as a big-endian number. -/
def distanceNat (a b : PeerID) : ℕ := ofBe (a.distance b).toList

theorem distance_comm (a b : PeerID) : a.distance b = b.distance a := by
  refine Bytes32.ext ?_
  exact List.zipWith_comm_of_comm fun x y => UInt8.xor_comm x y

theorem length_distance (a b : PeerID) : (a.distance b).toList.length = 32 :=
  Bytes32.length_toList _

/-- **The order of the sorts is that of the numbers.** -/
theorem compare_distance (a b c d : PeerID) :
    compare (a.distance b).toList (c.distance d).toList =
      compare (a.distanceNat b) (c.distanceNat d) :=
  (compare_ofBe (by rw [length_distance, length_distance])).symm

theorem distanceNat_self (a : PeerID) : a.distanceNat a = 0 := by
  have hself : ∀ xs : Bytes, ofBe (xs.zipWith (· ^^^ ·) xs) = 0 := by
    intro xs
    induction xs with
    | nil => rfl
    | cons x xs ih =>
      have hz : x ^^^ x = 0 := xor_eq_zero_iff.mpr rfl
      rw [List.zipWith_cons_cons, ofBe_cons, ih, hz]
      simp
  exact hself _

theorem zipWith_xor_inj : ∀ {xs ys zs : Bytes}, xs.length = zs.length → ys.length = zs.length →
    xs.zipWith (· ^^^ ·) zs = ys.zipWith (· ^^^ ·) zs → xs = ys := by
  intro xs
  induction xs with
  | nil =>
    intro ys zs hx hy _
    exact (List.length_eq_zero_iff.mp (hy.trans hx.symm)).symm
  | cons x xs ih =>
    intro ys zs hx hy h
    cases zs with
    | nil => cases hx
    | cons z zs =>
      cases ys with
      | nil => cases hy
      | cons y ys =>
        rw [List.zipWith_cons_cons, List.zipWith_cons_cons, List.cons.injEq] at h
        rw [ih (Nat.succ.inj hx) (Nat.succ.inj hy) h.2, (UInt8.xor_left_inj z).mp h.1]

theorem distance_inj {a b c : PeerID} (h : a.distance c = b.distance c) : a = b := by
  have hlist : (a.distance c).toList = (b.distance c).toList := by rw [h]
  exact ext (Bytes32.ext (zipWith_xor_inj (by simp) (by simp) hlist))

theorem distanceNat_inj {a b c : PeerID} (h : a.distanceNat c = b.distanceNat c) : a = b := by
  have hcompare := compare_distance a c b c
  rw [h, Nat.compare_eq_eq.mpr rfl] at hcompare
  exact distance_inj (Bytes32.ext (Std.LawfulEqOrd.eq_of_compare hcompare))

/-! ### The leading digit -/

theorem bucketInByte_digit_ofNat :
    ∀ n : Fin 256, ∀ r : Fin 4, ∀ k : Fin 3,
      bucketInByte 0 (UInt8.ofNat n) = some (r.val, k.val) → n.val / 4 ^ (3 - r.val) = k.val + 1 := by
  decide +kernel

/-- In one byte, the classifier finds the leading digit. -/
theorem digit_of_bucketInByte {i l k : ℕ} {d : UInt8} (hd : d ≠ 0)
    (h : bucketInByte i d = some (l, k)) :
    ∃ r, r < 4 ∧ k < 3 ∧ l = 4 * i + r ∧ d.toNat / 4 ^ (3 - r) = k + 1 := by
  obtain ⟨r, k', hr, hk, hb⟩ := bucketInByte_of_ne_zero (i := i) hd
  rw [h] at hb
  cases hb
  refine ⟨r, hr, hk, rfl, ?_⟩
  rw [bucketInByte_eq_map, ← ofNat_toFin d] at h
  obtain ⟨⟨r', k'⟩, hb, heq⟩ := Option.map_eq_some_iff.mp h
  rw [Prod.mk.injEq] at heq
  obtain rfl : r' = r := by omega
  obtain rfl : k' = k := heq.2
  exact bucketInByte_digit_ofNat d.toFin ⟨r', hr⟩ ⟨k', hk⟩ hb

/-- **Down the bytes, the classifier finds the leading digit.**  The induction is on the
bytes that are left. -/
theorem bucketFrom_spec : ∀ (i : ℕ) (xs ys : Bytes) {l k : ℕ}, xs.length = ys.length →
    bucketFrom i xs ys = some (l, k) → k < 3 ∧ ∃ m, l = 4 * i + m ∧ m < 4 * xs.length ∧
      ofBe (xs.zipWith (· ^^^ ·) ys) / 4 ^ (4 * xs.length - 1 - m) = k + 1 := by
  intro i xs
  induction xs generalizing i with
  | nil =>
    intro ys l k _ h
    simp [bucketFrom] at h
  | cons x xs ih =>
    intro ys l k hlen h
    cases ys with
    | nil => cases hlen
    | cons y ys =>
      have hlen' : xs.length = ys.length := Nat.succ.inj hlen
      have hzip : (xs.zipWith (· ^^^ ·) ys).length = xs.length := by simp [hlen']
      have hrest := ofBe_lt (xs.zipWith (· ^^^ ·) ys)
      rw [hzip] at hrest
      rw [List.zipWith_cons_cons, ofBe_cons, hzip, List.length_cons]
      by_cases hxy : x = y
      · subst hxy
        rw [bucketFrom_cons_self] at h
        obtain ⟨hk, m, hl, hm, hdigit⟩ := ih (i + 1) ys hlen' h
        refine ⟨hk, m + 4, by omega, by omega, ?_⟩
        have hz : x ^^^ x = 0 := xor_eq_zero_iff.mpr rfl
        rw [hz, show 4 * (xs.length + 1) - 1 - (m + 4) = 4 * xs.length - 1 - m by omega]
        simpa using hdigit
      · rw [bucketFrom_cons_of_ne hxy] at h
        have hd : x ^^^ y ≠ 0 := fun h0 => hxy (xor_eq_zero_iff.mp h0)
        obtain ⟨r, hr, hk, hl, hdigit⟩ := digit_of_bucketInByte hd h
        refine ⟨hk, r, hl, by omega, ?_⟩
        -- the bytes behind the first one do not reach its digits
        have hpow : (256 : ℕ) ^ xs.length = 4 ^ (4 * xs.length) := by
          rw [pow_mul]
          norm_num
        rw [show 4 * (xs.length + 1) - 1 - r = 4 * xs.length + (3 - r) by omega, pow_add,
          ← Nat.div_div_eq_div_mul, ← hpow, Nat.add_comm,
          Nat.add_mul_div_right _ _ (by positivity), Nat.div_eq_of_lt hrest, Nat.zero_add]
        exact hdigit

theorem bucket_spec {a b : PeerID} {l k : ℕ} (h : a.bucket b = some (l, k)) :
    l < 128 ∧ k < 3 ∧ a.distanceNat b / 4 ^ (127 - l) = k + 1 := by
  have hlen : a.bytes.toList.length = b.bytes.toList.length := by simp
  have hlen32 : a.bytes.toList.length = 32 := by simp
  obtain ⟨hk, m, hl, hm, hdigit⟩ := bucketFrom_spec 0 _ _ hlen h
  rw [hlen32] at hm hdigit
  obtain rfl : l = m := by omega
  exact ⟨hm, hk, hdigit⟩

theorem bucket_self (a : PeerID) : a.bucket a = none := by
  have hself : ∀ (i : ℕ) (xs : Bytes), bucketFrom i xs xs = none := by
    intro i xs
    induction xs generalizing i with
    | nil => rfl
    | cons x xs ih => rw [bucketFrom_cons_self, ih]
  exact hself 0 _

/-- A number has one leading digit. -/
theorem log_eq_of_digit {D e k : ℕ} (hk : k < 3) (h : D / 4 ^ e = k + 1) : Nat.log 4 D = e := by
  have hpos : 0 < 4 ^ e := by positivity
  have hle : 4 ^ e ≤ D := by
    by_contra hlt
    rw [Nat.div_eq_of_lt (not_le.mp hlt)] at h
    omega
  have hlt : D < 4 ^ (e + 1) := by
    rw [pow_succ, Nat.mul_comm]
    exact (Nat.div_lt_iff_lt_mul hpos).mp (by omega)
  exact Nat.log_eq_of_pow_le_of_lt_pow hle hlt

/-- **The bucket is the leading digit**, whatever it is. -/
theorem bucket_eq_some_iff {a b : PeerID} {l k : ℕ} :
    a.bucket b = some (l, k) ↔ l < 128 ∧ k < 3 ∧ a.distanceNat b / 4 ^ (127 - l) = k + 1 := by
  refine ⟨bucket_spec, fun ⟨hl, hk, hdigit⟩ => ?_⟩
  have hne : a ≠ b := by
    rintro rfl
    rw [distanceNat_self, Nat.zero_div] at hdigit
    omega
  obtain ⟨l', k', hb, hl', hk'⟩ := bucket_of_ne hne
  obtain ⟨-, -, hdigit'⟩ := bucket_spec hb
  have hlog := (log_eq_of_digit hk hdigit).symm.trans (log_eq_of_digit hk' hdigit')
  obtain rfl : l = l' := by omega
  obtain rfl : k = k' := by omega
  exact hb

/-- A deeper bucket is nearer, and so is one with a smaller digit at the same level. -/
theorem distanceNat_lt {a x y : PeerID} {l k l' k' : ℕ} (hx : a.bucket x = some (l, k))
    (hy : a.bucket y = some (l', k')) (h : l' < l ∨ l = l' ∧ k < k') :
    a.distanceNat x < a.distanceNat y := by
  obtain ⟨hl, hk, hdigit⟩ := bucket_spec hx
  obtain ⟨hl', hk', hdigit'⟩ := bucket_spec hy
  rcases h with hlt | ⟨rfl, hlt⟩
  · by_contra hle
    have hmono := Nat.log_mono_right (b := 4) (not_lt.mp hle)
    rw [log_eq_of_digit hk hdigit, log_eq_of_digit hk' hdigit'] at hmono
    omega
  · by_contra hle
    have hmono := Nat.div_le_div_right (c := 4 ^ (127 - l)) (not_lt.mp hle)
    omega

/-- **Buckets follow the metric.** -/
theorem buckets_follow_metric (a b : PeerID) :
    (a.bucket b = none ↔ a = b) ∧
      (∀ l k, a.bucket b = some (l, k) ↔
        l < 128 ∧ k < 3 ∧ a.distanceNat b / 4 ^ (127 - l) = k + 1) ∧
      a.bucket b = b.bucket a ∧
      ∀ x y l k l' k', a.bucket x = some (l, k) → a.bucket y = some (l', k') →
        l' < l ∨ l = l' ∧ k < k' →
          compare (a.distance x).toList (a.distance y).toList = .lt := by
  refine ⟨⟨fun h => ?_, ?_⟩, fun l k => bucket_eq_some_iff, ?_, ?_⟩
  · by_contra hne
    obtain ⟨l, k, hb, -, -⟩ := bucket_of_ne hne
    rw [h] at hb
    cases hb
  · rintro rfl
    exact bucket_self a
  · refine Option.ext fun ⟨l, k⟩ => ?_
    rw [bucket_eq_some_iff, bucket_eq_some_iff, distanceNat, distanceNat, distance_comm]
  · intro x y l k l' k' hx hy h
    rw [compare_distance]
    exact Std.compare_eq_lt.mpr (distanceNat_lt hx hy h)

end PeerID

end Tewta
