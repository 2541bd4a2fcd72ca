import Mathlib.Data.Nat.Digits.Lemmas
import Mathlib.Data.List.Basic

/-!
# Numbers as byte strings

Two encodings of natural numbers as lists of bytes.  `be k n` is the big-endian
encoding in exactly `k` bytes, which keeps `n` modulo `256 ^ k`; `ofBe` reads
it.  `leMin n` is the shortest little-endian encoding, with the one byte `0`
for zero; `ofLe` reads any little-endian string.

`ofBe_be` and `ofLe_leMin` are the round trips.  The shortest encoding is a
prefix-unfriendly one: `leMin_append_inj` says a concatenation of two shortest
encodings determines the two numbers once the length of the first is known,
and `leMin_append_eq_iff` says what two concatenations with the boundary in
different places have in common.

The exclusive or of two strings of one length is that of their numbers
(`ofBe_zipWith_xor`).
-/

namespace ByteString

theorem toNat_ofNat (n : ℕ) : (UInt8.ofNat n).toNat = n % 256 := by
  simp [UInt8.toNat_ofNat']

/-! ### Big endian, in a fixed number of bytes -/

/-- The last `k` base-256 digits of `n`, most significant first. -/
def be : ℕ → ℕ → List UInt8
  | 0, _ => []
  | k + 1, n => UInt8.ofNat (n / 256 ^ k) :: be k n

/-- The number a big-endian byte string denotes. -/
def ofBe (bs : List UInt8) : ℕ := bs.foldl (fun acc b => acc * 256 + b.toNat) 0

@[simp] theorem be_length (k n : ℕ) : (be k n).length = k := by
  induction k with
  | zero => rfl
  | succ k ih => rw [be, List.length_cons, ih]

theorem foldl_be (k n acc : ℕ) :
    (be k n).foldl (fun acc b => acc * 256 + b.toNat) acc = acc * 256 ^ k + n % 256 ^ k := by
  induction k generalizing acc with
  | zero => simp [be, Nat.mod_one]
  | succ k ih =>
    rw [be, List.foldl_cons, ih, toNat_ofNat]
    have hsplit : n % 256 ^ (k + 1) = n / 256 ^ k % 256 * 256 ^ k + n % 256 ^ k := by
      rw [Nat.pow_succ, Nat.mod_mul, Nat.mul_comm (256 ^ k), Nat.add_comm]
    rw [hsplit, Nat.pow_succ, Nat.add_mul, Nat.mul_assoc, Nat.mul_comm 256 (256 ^ k),
      Nat.add_assoc]

/-- Reading back a number written in `k` bytes gives it modulo `256 ^ k`. -/
theorem ofBe_be (k n : ℕ) : ofBe (be k n) = n % 256 ^ k := by
  rw [ofBe, foldl_be, Nat.zero_mul, Nat.zero_add]

theorem ofBe_be_of_lt {k n : ℕ} (h : n < 256 ^ k) : ofBe (be k n) = n := by
  rw [ofBe_be, Nat.mod_eq_of_lt h]

/-! ### A byte at a time -/

theorem foldl_ofBe (bs : List UInt8) (acc : ℕ) :
    bs.foldl (fun acc b => acc * 256 + b.toNat) acc = acc * 256 ^ bs.length + ofBe bs := by
  induction bs generalizing acc with
  | nil => simp [ofBe]
  | cons b bs ih =>
    rw [ofBe, List.foldl_cons, List.foldl_cons, ih, ih, List.length_cons, pow_succ]
    ring

theorem ofBe_cons (b : UInt8) (bs : List UInt8) :
    ofBe (b :: bs) = b.toNat * 256 ^ bs.length + ofBe bs := by
  rw [ofBe, List.foldl_cons, foldl_ofBe, Nat.zero_mul, Nat.zero_add]

theorem ofBe_lt (bs : List UInt8) : ofBe bs < 256 ^ bs.length := by
  induction bs with
  | nil => simp [ofBe]
  | cons b bs ih =>
    have hb : b.toNat < 256 := b.toNat_lt
    calc ofBe (b :: bs) = b.toNat * 256 ^ bs.length + ofBe bs := ofBe_cons b bs
      _ < b.toNat * 256 ^ bs.length + 256 ^ bs.length := Nat.add_lt_add_left ih _
      _ = (b.toNat + 1) * 256 ^ bs.length := (Nat.succ_mul _ _).symm
      _ ≤ 256 * 256 ^ bs.length := Nat.mul_le_mul_right _ hb
      _ = 256 ^ (b :: bs).length := by rw [List.length_cons, pow_succ, Nat.mul_comm]

/-- The lexicographic order of strings of one length is that of their numbers. -/
theorem compare_ofBe : ∀ {as bs : List UInt8}, as.length = bs.length →
    compare (ofBe as) (ofBe bs) = compare as bs := by
  intro as
  induction as with
  | nil =>
    intro bs h
    rw [List.length_eq_zero_iff.mp h.symm]
    rfl
  | cons a as ih =>
    intro bs h
    cases bs with
    | nil => cases h
    | cons b bs =>
      have hlen : as.length = bs.length := Nat.succ.inj h
      have ha := ofBe_lt as
      have hb := ofBe_lt bs
      rw [← hlen] at hb
      have hcompare : compare (a :: as) (b :: bs) = (compare a b).then (compare as bs) :=
        List.compareLex_cons_cons
      rw [hcompare, ofBe_cons, ofBe_cons, ← hlen, ← ih hlen]
      -- the first byte outweighs the others
      have hlt : ∀ {x y m n : ℕ}, x < y → m < 256 ^ as.length →
          x * 256 ^ as.length + m < y * 256 ^ as.length + n := by
        intro x y m n hxy hm
        have hmul : (x + 1) * 256 ^ as.length ≤ y * 256 ^ as.length :=
          Nat.mul_le_mul_right _ hxy
        rw [Nat.succ_mul] at hmul
        omega
      rcases lt_trichotomy a.toNat b.toNat with hab | hab | hab
      · rw [Std.compare_eq_lt.mpr (UInt8.lt_iff_toNat_lt.mpr hab)]
        exact Std.compare_eq_lt.mpr (hlt hab ha)
      · obtain rfl := UInt8.toNat_inj.mp hab
        have haa : compare a a = .eq := Std.ReflCmp.compare_self
        rw [haa, Ordering.eq_then]
        rcases lt_trichotomy (ofBe as) (ofBe bs) with h | h | h
        · rw [Std.compare_eq_lt.mpr h]
          exact Std.compare_eq_lt.mpr (Nat.add_lt_add_left h _)
        · rw [h]
          simp
        · rw [Std.compare_eq_gt.mpr h]
          exact Std.compare_eq_gt.mpr (Nat.add_lt_add_left h _)
      · rw [Std.compare_eq_gt.mpr (UInt8.lt_iff_toNat_lt.mpr hab)]
        exact Std.compare_eq_gt.mpr (hlt hab hb)

/-! ### Exclusive or -/

theorem xor_le_add (m n : ℕ) : m ^^^ n ≤ m + n := by
  induction m using Nat.strong_induction_on generalizing n with
  | _ m ih =>
    by_cases hm : m = 0
    · subst hm
      simp
    · have hhalf := ih (m / 2) (by omega) (n / 2)
      rw [← Nat.xor_div_two] at hhalf
      have hbit : (m ^^^ n) % 2 = 1 ↔ ¬ (m % 2 = 1 ↔ n % 2 = 1) := Nat.xor_mod_two_eq_one
      omega

/-- Exclusive or is a distance of numbers. -/
theorem xor_triangle (l m n : ℕ) : l ^^^ n ≤ (l ^^^ m) + (m ^^^ n) := by
  have hsplit : l ^^^ n = (l ^^^ m) ^^^ (m ^^^ n) := by
    rw [Nat.xor_assoc, ← Nat.xor_assoc m, Nat.xor_self, Nat.zero_xor]
  rw [hsplit]
  exact xor_le_add _ _

theorem ofBe_zipWith_xor : ∀ {as bs : List UInt8}, as.length = bs.length →
    ofBe (as.zipWith (· ^^^ ·) bs) = ofBe as ^^^ ofBe bs := by
  intro as
  induction as with
  | nil =>
    intro bs h
    rw [List.length_eq_zero_iff.mp h.symm]
    rfl
  | cons a as ih =>
    intro bs h
    cases bs with
    | nil => cases h
    | cons b bs =>
      have hlen : as.length = bs.length := Nat.succ.inj h
      have hzip : (as.zipWith (· ^^^ ·) bs).length = as.length := by simp [hlen]
      have hpow : (256 : ℕ) ^ as.length = 2 ^ (8 * as.length) := by
        rw [pow_mul]
        norm_num
      have ha := ofBe_lt as
      have hb := ofBe_lt bs
      have hc := ofBe_lt (as.zipWith (· ^^^ ·) bs)
      rw [← hlen] at hb
      rw [hzip] at hc
      rw [hpow] at ha hb hc
      rw [List.zipWith_cons_cons, ofBe_cons, ofBe_cons, ofBe_cons, hzip, ← hlen, hpow]
      refine Nat.eq_of_testBit_eq fun i => ?_
      rw [Nat.testBit_xor, Nat.mul_comm, Nat.mul_comm a.toNat, Nat.mul_comm b.toNat,
        Nat.testBit_two_pow_mul_add _ hc, Nat.testBit_two_pow_mul_add _ ha,
        Nat.testBit_two_pow_mul_add _ hb, ih hlen, UInt8.toNat_xor]
      split
      · rw [Nat.testBit_xor]
      · rw [Nat.testBit_xor]

/-! ### Little endian, in as few bytes as possible -/

/-- The number a little-endian byte string denotes. -/
def ofLe (bs : List UInt8) : ℕ := Nat.ofDigits 256 (bs.map UInt8.toNat)

/-- The shortest little-endian encoding; zero takes one byte. -/
def leMin (n : ℕ) : List UInt8 :=
  if n = 0 then [0] else (Nat.digits 256 n).map UInt8.ofNat

theorem map_toNat_digits (n : ℕ) :
    ((Nat.digits 256 n).map UInt8.ofNat).map UInt8.toNat = Nat.digits 256 n := by
  rw [List.map_map]
  refine (List.map_congr_left (fun d hd => ?_)).trans (List.map_id _)
  rw [Function.comp_apply, toNat_ofNat]
  exact Nat.mod_eq_of_lt (Nat.digits_lt_base (by norm_num) hd)

/-- **Round trip** of the little-endian encoding. -/
theorem ofLe_leMin (n : ℕ) : ofLe (leMin n) = n := by
  unfold leMin ofLe
  split
  · rename_i h
    subst h
    rfl
  · rw [map_toNat_digits, Nat.ofDigits_digits]

theorem leMin_injective : Function.Injective leMin :=
  Function.LeftInverse.injective ofLe_leMin

theorem ofLe_append (as bs : List UInt8) :
    ofLe (as ++ bs) = ofLe as + 256 ^ as.length * ofLe bs := by
  rw [ofLe, List.map_append, Nat.ofDigits_append, List.length_map]
  rfl

theorem leMin_ne_nil (n : ℕ) : leMin n ≠ [] := by
  unfold leMin
  split
  · simp
  · rename_i h
    simpa using Nat.digits_ne_nil_iff_ne_zero.mpr h

theorem leMin_getLast_ne_zero {n : ℕ} (h : n ≠ 0) :
    (leMin n).getLast (leMin_ne_nil n) ≠ 0 := by
  have hne : Nat.digits 256 n ≠ [] := Nat.digits_ne_nil_iff_ne_zero.mpr h
  have hlast : (leMin n).getLast (leMin_ne_nil n)
      = UInt8.ofNat ((Nat.digits 256 n).getLast hne) := by
    simp only [leMin, if_neg h, List.getLast_map]
  rw [hlast]
  intro hz
  have hlt := Nat.digits_lt_base (b := 256) (by norm_num) (List.getLast_mem hne)
  have h0 := congrArg UInt8.toNat hz
  rw [toNat_ofNat, Nat.mod_eq_of_lt hlt] at h0
  exact Nat.getLast_digit_ne_zero 256 h h0

/-- **A byte string whose last byte is not zero is the shortest encoding of what
it denotes.** -/
theorem leMin_ofLe {bs : List UInt8} (hne : bs ≠ []) (hlast : bs.getLast hne ≠ 0) :
    leMin (ofLe bs) = bs := by
  have hne' : bs.map UInt8.toNat ≠ [] := by simpa using hne
  have hdig : Nat.digits 256 (ofLe bs) = bs.map UInt8.toNat := by
    refine Nat.digits_ofDigits 256 (by norm_num) _ (fun d hd => ?_) (fun h => ?_)
    · obtain ⟨b, -, rfl⟩ := List.mem_map.mp hd
      exact b.toNat_lt
    · rw [List.getLast_map]
      intro hz
      exact hlast (UInt8.toNat_inj.mp (by simpa using hz))
  have hpos : ofLe bs ≠ 0 := by
    intro hz
    rw [hz, Nat.digits_zero] at hdig
    exact hne' hdig.symm
  rw [leMin, if_neg hpos, hdig, List.map_map]
  refine (List.map_congr_left (fun b _ => ?_)).trans (List.map_id _)
  simp

/-- With the length of the first part known, a concatenation of two shortest
encodings determines both numbers. -/
theorem leMin_append_inj {a b c d : ℕ} (h : leMin a ++ leMin b = leMin c ++ leMin d)
    (hlen : (leMin a).length = (leMin c).length) : a = c ∧ b = d := by
  obtain ⟨h1, h2⟩ := List.append_inj h hlen
  exact ⟨leMin_injective h1, leMin_injective h2⟩

/-- `(c, d)` is `(a, b)` with the low bytes `mid` of `b` moved to the top of `a`. -/
def Shifted (a b c d : ℕ) : Prop :=
  ∃ (mid : List UInt8) (h : mid ≠ []), mid.getLast h ≠ 0 ∧
    c = a + 256 ^ (leMin a).length * ofLe mid ∧ b = ofLe mid + 256 ^ mid.length * d

theorem leMin_append_eq_of_shifted {a b c d : ℕ} (hd : d ≠ 0) (h : Shifted a b c d) :
    leMin a ++ leMin b = leMin c ++ leMin d := by
  obtain ⟨mid, hne, hlast, hc, hb⟩ := h
  have hcs : leMin c = leMin a ++ mid := by
    have hlast' : (leMin a ++ mid).getLast (by simp [hne]) ≠ 0 := by
      rwa [List.getLast_append_of_ne_nil _ hne]
    rw [hc, ← leMin_ofLe _ hlast', ofLe_append, ofLe_leMin]
  have hbs : leMin b = mid ++ leMin d := by
    have hdl := leMin_ne_nil d
    have hlast' : (mid ++ leMin d).getLast (by simp [hne]) ≠ 0 := by
      rw [List.getLast_append_of_ne_nil _ hdl]
      exact leMin_getLast_ne_zero hd
    rw [hb, ← leMin_ofLe _ hlast', ofLe_append, ofLe_leMin]
  rw [hcs, hbs, List.append_assoc]

theorem shifted_of_leMin_append_eq {a b c d : ℕ} (hc : c ≠ 0)
    (h : leMin a ++ leMin b = leMin c ++ leMin d)
    (hlen : (leMin a).length < (leMin c).length) : Shifted a b c d := by
  obtain ⟨mid, hca, hbd⟩ : ∃ mid, leMin c = leMin a ++ mid ∧ leMin b = mid ++ leMin d := by
    rcases List.append_eq_append_iff.mp h with ⟨mid, h1, h2⟩ | ⟨mid, h1, h2⟩
    · exact ⟨mid, h1, h2⟩
    · rw [h1, List.length_append] at hlen
      omega
  have hne : mid ≠ [] := by
    rintro rfl
    rw [hca, List.append_nil] at hlen
    exact lt_irrefl _ hlen
  refine ⟨mid, hne, ?_, ?_, ?_⟩
  · have hz := leMin_getLast_ne_zero hc
    simp only [hca] at hz
    rwa [List.getLast_append_of_ne_nil _ hne] at hz
  · rw [← ofLe_leMin c, hca, ofLe_append, ofLe_leMin]
  · rw [← ofLe_leMin b, hbd, ofLe_append, ofLe_leMin]

/-- **Two pairs have the same concatenation exactly when they are equal or one
is the other with the boundary moved.** -/
theorem leMin_append_eq_iff {a b c d : ℕ} (ha : a ≠ 0) (hb : b ≠ 0) (hc : c ≠ 0) (hd : d ≠ 0) :
    leMin a ++ leMin b = leMin c ++ leMin d ↔
      (a = c ∧ b = d) ∨ Shifted a b c d ∨ Shifted c d a b := by
  constructor
  · intro h
    rcases Nat.lt_trichotomy (leMin a).length (leMin c).length with hlt | heq | hgt
    · exact Or.inr (Or.inl (shifted_of_leMin_append_eq hc h hlt))
    · exact Or.inl (leMin_append_inj h heq)
    · exact Or.inr (Or.inr (shifted_of_leMin_append_eq ha h.symm hgt))
  · rintro (⟨rfl, rfl⟩ | h | h)
    · rfl
    · exact leMin_append_eq_of_shifted hd h
    · exact (leMin_append_eq_of_shifted hb h).symm

end ByteString
