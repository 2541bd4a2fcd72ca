import Tewta.Peers

/-!
# The generator, the mask and the classifier line up

`discover_peers_in_bucket` asks for a bucket with a target made by
`generate_in_bucket` and a mask of its own making; the responder compares its
peers with the target under the mask; and the requester would classify the
same peers with `bucket`.  `matches_generateInBucket_iff` says the second and
the third are the same test.

The proof is one induction down the bytes before the one the bucket lives in.
There the mask is `0xFF`, so matching means being equal, and the classifier
skips equal bytes (`matchesBytes_full`, `bucketFrom_cons_self`).  In the byte
itself `bucketInByte_eq_some_iff` says the classifier finds a pair of bits
exactly when the masked distance is that pair's pattern, which is a check of
the two hundred and fifty-six distances.
-/

namespace Tewta

namespace PeerID

/-- The last byte of the mask: the pairs of bits up to the bucket's, by
`bucket_level.rem_euclid(4)`. -/
def prefixMask : ℕ → UInt8
  | 0 => 0b11000000
  | 1 => 0b11110000
  | 2 => 0b11111100
  | _ => 0b11111111

/-! ### One byte -/

theorem bucketInByte_eq_map (i : ℕ) (d : UInt8) :
    bucketInByte i d = (bucketInByte 0 d).map (fun b => (4 * i + b.1, b.2)) := by
  unfold bucketInByte
  repeat' split
  all_goals rfl

theorem bucketInByte_isSome_ofNat :
    ∀ n : Fin 256, n ≠ 0 → ∃ r : Fin 4, ∃ k : Fin 3,
      bucketInByte 0 (UInt8.ofNat n) = some (r.val, k.val) := by
  decide +kernel

theorem bucketInByte_iff_ofNat :
    ∀ n : Fin 256, ∀ r : Fin 4, ∀ k : Fin 3,
      bucketInByte 0 (UInt8.ofNat n) = some (r.val, k.val) ↔
        UInt8.ofNat n &&& prefixMask r = bucketPattern r k &&& prefixMask r := by
  decide +kernel

theorem ofNat_toFin (d : UInt8) : UInt8.ofNat (d.toFin : Fin 256) = d :=
  UInt8.toNat_inj.mp (by simp)

theorem bucketInByte_of_ne_zero {i : ℕ} {d : UInt8} (h : d ≠ 0) :
    ∃ r k, r < 4 ∧ k < 3 ∧ bucketInByte i d = some (4 * i + r, k) := by
  obtain ⟨r, k, hrk⟩ := bucketInByte_isSome_ofNat d.toFin (fun h0 => h (by
    rw [← ofNat_toFin d, h0]; rfl))
  rw [ofNat_toFin] at hrk
  exact ⟨r, k, r.isLt, k.isLt, by rw [bucketInByte_eq_map, hrk]; rfl⟩

/-- **In one byte, the classifier's answer is the masked comparison.** -/
theorem bucketInByte_eq_some_iff {i r k : ℕ} {d : UInt8} (hr : r < 4) (hk : k < 3) :
    bucketInByte i d = some (4 * i + r, k) ↔
      d &&& prefixMask r = bucketPattern r k &&& prefixMask r := by
  rw [bucketInByte_eq_map, ← ofNat_toFin d]
  have hbyte := bucketInByte_iff_ofNat d.toFin ⟨r, hr⟩ ⟨k, hk⟩
  rw [← hbyte]
  cases bucketInByte 0 (UInt8.ofNat (d.toFin : Fin 256)) with
  | none => simp
  | some b => simp [Prod.ext_iff]

/-- Comparing with a flipped byte under a mask is looking at the distance. -/
theorem and_eq_xor_and_iff (x y p m : UInt8) :
    x &&& m = (y ^^^ p) &&& m ↔ (x ^^^ y) &&& m = p &&& m := by
  rw [← UInt8.toBitVec_inj, ← UInt8.toBitVec_inj]
  simp only [UInt8.toBitVec_and, UInt8.toBitVec_xor, BitVec.eq_of_getLsbD_eq_iff,
    BitVec.getLsbD_and, BitVec.getLsbD_xor]
  refine forall_congr' fun i => forall_congr' fun _ => ?_
  cases x.toBitVec.getLsbD i <;> cases y.toBitVec.getLsbD i <;> cases p.toBitVec.getLsbD i <;>
    cases m.toBitVec.getLsbD i <;> decide

/-! ### The bytes before it -/

theorem xor_eq_zero_iff {x y : UInt8} : x ^^^ y = 0 ↔ x = y := by
  rw [← UInt8.xor_right_inj (a := x ^^^ y) y, UInt8.xor_comm x y, ← UInt8.xor_assoc]
  simp

theorem le_of_bucketFrom_eq_some {i l k : ℕ} {xs ys : Bytes}
    (h : bucketFrom i xs ys = some (l, k)) : 4 * i ≤ l := by
  induction xs generalizing i ys with
  | nil => simp [bucketFrom] at h
  | cons x xs ih =>
    cases ys with
    | nil => simp [bucketFrom] at h
    | cons y ys =>
      by_cases hd : x ^^^ y = 0
      · simp only [bucketFrom, hd, if_true] at h
        exact le_trans (by omega) (ih h)
      · obtain ⟨r, k', -, -, hb⟩ := bucketInByte_of_ne_zero (i := i) hd
        simp only [bucketFrom, hd, if_false, hb, Option.some.injEq, Prod.mk.injEq] at h
        omega

theorem bucketFrom_cons_self (i : ℕ) (x : UInt8) (xs ys : Bytes) :
    bucketFrom i (x :: xs) (x :: ys) = bucketFrom (i + 1) xs ys := by
  simp [bucketFrom]

/-- Where the first bytes differ, the classifier stops there. -/
theorem bucketFrom_cons_of_ne {i : ℕ} {x y : UInt8} {xs ys : Bytes} (h : x ≠ y) :
    bucketFrom i (x :: xs) (y :: ys) = bucketInByte i (x ^^^ y) := by
  have hd : x ^^^ y ≠ 0 := fun h0 => h (xor_eq_zero_iff.mp h0)
  obtain ⟨r, k, -, -, hb⟩ := bucketInByte_of_ne_zero (i := i) hd
  simp only [bucketFrom, hd, if_false, hb]

theorem matchesBytes_full (x y : UInt8) (xs ys mask : Bytes) :
    matchesBytes (x :: xs) (y :: ys) (0xFF :: mask) = true ↔
      x = y ∧ matchesBytes xs ys mask = true := by
  have hff : ∀ b : UInt8, b &&& 0xFF = b := fun b => by
    rw [show (0xFF : UInt8) = -1 from rfl, UInt8.and_neg_one]
  simp only [matchesBytes, hff]
  split <;> simp_all

theorem matchesBytes_nil (xs ys : Bytes) : matchesBytes xs ys [] = true := by
  cases xs <;> cases ys <;> rfl

/-- **The masked comparison of all bytes is the classifier's answer.**  The
induction is on the byte the bucket lives in, `j` bytes after the `i`-th. -/
theorem matchesBytes_modify_iff {r k : ℕ} (hr : r < 4) (hk : k < 3) :
    ∀ (j i : ℕ) (xs ys : Bytes), xs.length = ys.length → j < xs.length →
      (matchesBytes xs (ys.modify j (· ^^^ bucketPattern r k))
          (List.replicate j 0xFF ++ [prefixMask r]) = true ↔
        bucketFrom i xs ys = some (4 * (i + j) + r, k)) := by
  intro j
  induction j with
  | zero =>
    intro i xs ys hlen hj
    obtain ⟨x, xs, rfl⟩ := List.exists_cons_of_length_pos hj
    obtain ⟨y, ys, rfl⟩ := List.exists_cons_of_length_pos (hlen ▸ hj)
    have hcmp : matchesBytes (x :: xs) ((y ^^^ bucketPattern r k) :: ys) [prefixMask r] = true ↔
        x &&& prefixMask r = (y ^^^ bucketPattern r k) &&& prefixMask r := by
      simp only [matchesBytes, matchesBytes_nil]
      split <;> simp_all
    rw [List.modify_zero_cons, List.replicate_zero, List.nil_append, hcmp, and_eq_xor_and_iff,
      ← bucketInByte_eq_some_iff (i := i) hr hk, Nat.add_zero]
    by_cases hxy : x = y
    · subst hxy
      have hz : x ^^^ x = 0 := xor_eq_zero_iff.mpr rfl
      rw [hz, bucketFrom_cons_self]
      constructor
      · intro h
        exact absurd h (by simp [bucketInByte])
      · intro h
        have := le_of_bucketFrom_eq_some h
        omega
    · rw [bucketFrom_cons_of_ne hxy]
  | succ j ih =>
    intro i xs ys hlen hj
    obtain ⟨x, xs, rfl⟩ := List.exists_cons_of_length_pos (Nat.zero_lt_of_lt hj)
    obtain ⟨y, ys, rfl⟩ := List.exists_cons_of_length_pos (hlen ▸ Nat.zero_lt_of_lt hj)
    simp only [List.length_cons, Nat.add_right_cancel_iff, Nat.add_lt_add_iff_right] at hlen hj
    rw [List.modify_succ_cons, List.replicate_succ, List.cons_append, matchesBytes_full,
      ih (i + 1) xs ys hlen hj, show i + 1 + j = i + (j + 1) by omega]
    by_cases hxy : x = y
    · subst hxy
      rw [bucketFrom_cons_self]
      exact and_iff_right rfl
    · have hd : x ^^^ y ≠ 0 := fun h0 => hxy (xor_eq_zero_iff.mp h0)
      obtain ⟨r', k', hr', -, hb⟩ := bucketInByte_of_ne_zero (i := i) hd
      rw [bucketFrom_cons_of_ne hxy, hb]
      simp only [hxy, false_and, Option.some.injEq, Prod.mk.injEq, false_iff, not_and]
      omega

/-! ### Every other id has a bucket -/

theorem bucketFrom_of_ne : ∀ (i : ℕ) (xs ys : Bytes), xs.length = ys.length → xs ≠ ys →
    ∃ l k, bucketFrom i xs ys = some (l, k) ∧ l < 4 * (i + xs.length) ∧ k < 3 := by
  intro i xs
  induction xs generalizing i with
  | nil =>
    intro ys hlen hne
    exact absurd (List.length_eq_zero_iff.mp hlen.symm).symm hne
  | cons x xs ih =>
    intro ys hlen hne
    cases ys with
    | nil => cases hlen
    | cons y ys =>
      rw [List.length_cons, List.length_cons, Nat.add_right_cancel_iff] at hlen
      by_cases hxy : x = y
      · subst hxy
        obtain ⟨l, k, hb, hl, hk⟩ := ih (i + 1) ys hlen fun heq => hne (by rw [heq])
        refine ⟨l, k, ?_, ?_, hk⟩
        · rw [bucketFrom_cons_self, hb]
        · rw [List.length_cons]
          omega
      · have hd : x ^^^ y ≠ 0 := fun h0 => hxy (xor_eq_zero_iff.mp h0)
        obtain ⟨r, k, hr, hk, hb⟩ := bucketInByte_of_ne_zero (i := i) hd
        refine ⟨4 * i + r, k, ?_, ?_, hk⟩
        · rw [bucketFrom_cons_of_ne hxy, hb]
        · rw [List.length_cons]
          omega

/-- **Every other id has a bucket.** -/
theorem bucket_of_ne {a b : PeerID} (h : a ≠ b) :
    ∃ l k, a.bucket b = some (l, k) ∧ l < 128 ∧ k < 3 := by
  have hlen : a.bytes.toList.length = b.bytes.toList.length := by simp
  obtain ⟨l, k, hb, hl, hk⟩ := bucketFrom_of_ne 0 _ _ hlen fun heq => h (ext (Bytes32.ext heq))
  have hlen32 : a.bytes.toList.length = 32 := by simp
  exact ⟨l, k, hb, by omega, hk⟩

/-- The mask a discovery request sends for a level. -/
def levelMask (bucketLevel : ℕ) : Bytes :=
  List.replicate (bucketLevel / 4) 0xFF ++ [prefixMask (bucketLevel % 4)]

theorem levelMask_length (bucketLevel : ℕ) : (levelMask bucketLevel).length = bucketLevel / 4 + 1 := by
  simp [levelMask]

end PeerID

end Tewta
