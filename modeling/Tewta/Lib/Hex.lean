import Mathlib.Data.List.Basic
import Tewta.Lib.Utf8

/-!
# Bytes in hexadecimal

`lowerHex` writes a byte in two digits, and `fromStrRadix` reads one.  The reader is the one for
numbers of any length: letters may be capital, leading zeros may be left out or added, and a plus
sign may stand in front.  So a text of two characters is read if it is two digits or a plus sign
and a digit (`fromStrRadix_pair`), and up to letter case only the former is how the byte is
written.
-/

namespace Hex

/-- `char::to_digit`, in radix 16. -/
def toDigit (c : Char) : Option ℕ :=
  if '0' ≤ c ∧ c ≤ '9' then some (c.toNat - 48)
  else if 'a' ≤ c ∧ c ≤ 'f' then some (c.toNat - 87)
  else if 'A' ≤ c ∧ c ≤ 'F' then some (c.toNat - 55)
  else none

inductive IntErrorKind
  | empty
  | invalidDigit
  | posOverflow
  deriving DecidableEq

/-- The loop of `u8::from_str_radix`. -/
def fromDigits (n : ℕ) : List UInt8 → Except IntErrorKind UInt8
  | [] => .ok (UInt8.ofNat n)
  | b :: digits =>
    match toDigit (Utf8.ofAscii b) with
    | none => .error .invalidDigit
    | some d => if 16 * n + d < 256 then fromDigits (16 * n + d) digits else .error .posOverflow

/-- `u8::from_str_radix`, in radix 16.  A dash is no sign for unsigned numbers. -/
def fromStrRadix (src : List UInt8) : Except IntErrorKind UInt8 :=
  match src with
  | [] => .error .empty
  | [43] => .error .invalidDigit
  | 43 :: digits => fromDigits 0 digits
  | digits => fromDigits 0 digits

/-- The format `{:02x}`. -/
def lowerHex (b : UInt8) : List Char :=
  let digits := Nat.toDigits 16 b.toNat
  List.replicate (2 - digits.length) '0' ++ digits

/-! ### Digits -/

def IsHexDigit (c : Char) : Prop :=
  ('0' ≤ c ∧ c ≤ '9') ∨ ('a' ≤ c ∧ c ≤ 'f') ∨ ('A' ≤ c ∧ c ≤ 'F')

instance : DecidablePred IsHexDigit := fun c =>
  inferInstanceAs (Decidable (('0' ≤ c ∧ c ≤ '9') ∨ ('a' ≤ c ∧ c ≤ 'f') ∨ ('A' ≤ c ∧ c ≤ 'F')))

theorem IsHexDigit.toNat_lt {c : Char} (h : IsHexDigit c) : c.toNat < 128 := by
  have hle : ∀ {d : Char}, c ≤ d → c.toNat ≤ d.toNat := fun h => UInt32.le_iff_toNat_le.mp h
  rcases h with ⟨-, h⟩ | ⟨-, h⟩ | ⟨-, h⟩
  · exact Nat.lt_of_le_of_lt (hle h) (by decide)
  · exact Nat.lt_of_le_of_lt (hle h) (by decide)
  · exact Nat.lt_of_le_of_lt (hle h) (by decide)

theorem toDigit_ascii : ∀ n : Fin 128, IsHexDigit (Char.ofNat n) →
    ∃ d : Fin 16, toDigit (Char.ofNat n) = some d.val ∧
      Nat.digitChar d = (Char.ofNat n).toLower := by
  decide +kernel

theorem exists_toDigit {c : Char} (h : IsHexDigit c) :
    ∃ d, toDigit c = some d ∧ d < 16 ∧ Nat.digitChar d = c.toLower := by
  obtain ⟨d, hd, hchar⟩ := toDigit_ascii ⟨c.toNat, h.toNat_lt⟩ (by rwa [Char.ofNat_toNat])
  rw [Char.ofNat_toNat] at hd hchar
  exact ⟨d, hd, d.isLt, hchar⟩

theorem isHexDigit_of_toDigit {c : Char} {d : ℕ} (h : toDigit c = some d) : IsHexDigit c := by
  rw [toDigit] at h
  split at h
  · rename_i hc
    exact Or.inl hc
  · split at h
    · rename_i hc
      exact Or.inr (Or.inl hc)
    · split at h
      · rename_i hc
        exact Or.inr (Or.inr hc)
      · cases h

theorem digitChar_injective : ∀ m n : Fin 16, Nat.digitChar m = Nat.digitChar n → m = n := by
  decide +kernel

/-! ### Bytes -/

theorem lowerHex_ofNat : ∀ n : Fin 256, lowerHex (UInt8.ofFin n) =
    [Nat.digitChar (n.val / 16), Nat.digitChar (n.val % 16)] := by
  decide +kernel

theorem lowerHex_eq (b : UInt8) :
    lowerHex b = [Nat.digitChar (b.toNat / 16), Nat.digitChar (b.toNat % 16)] :=
  lowerHex_ofNat b.toFin

theorem lowerHex_injective {b c : UInt8} (h : lowerHex b = lowerHex c) : b = c := by
  have hb := b.toNat_lt
  have hc := c.toNat_lt
  rw [lowerHex_eq, lowerHex_eq] at h
  obtain ⟨hhigh, hlow⟩ := List.cons.inj h
  have hdiv := digitChar_injective ⟨b.toNat / 16, by omega⟩ ⟨c.toNat / 16, by omega⟩ hhigh
  have hmod := digitChar_injective ⟨b.toNat % 16, by omega⟩ ⟨c.toNat % 16, by omega⟩
    (List.cons.inj hlow).1
  refine UInt8.toNat_inj.mp ?_
  have hdiv' : b.toNat / 16 = c.toNat / 16 := congrArg Fin.val hdiv
  have hmod' : b.toNat % 16 = c.toNat % 16 := congrArg Fin.val hmod
  omega

theorem lowerHex_ofDigits {m n : ℕ} (hm : m < 16) (hn : n < 16) :
    lowerHex (UInt8.ofNat (16 * m + n)) = [Nat.digitChar m, Nat.digitChar n] := by
  rw [lowerHex_eq, UInt8.toNat_ofNat_of_lt' (show 16 * m + n < 256 by omega)]
  congr 2
  · omega
  · congr 1
    omega

/-! ### Reading -/

theorem fromDigits_last {n : ℕ} (hn : n < 16) (y v : UInt8) :
    fromDigits n [y] = .ok v ↔ IsHexDigit (Utf8.ofAscii y) ∧
      lowerHex v = [Nat.digitChar n, (Utf8.ofAscii y).toLower] := by
  have hread : ∀ {d}, toDigit (Utf8.ofAscii y) = some d → d < 16 →
      fromDigits n [y] = .ok (UInt8.ofNat (16 * n + d)) := by
    intro d hd hlt
    rw [fromDigits, hd]
    simp only
    rw [if_pos (by omega), fromDigits]
  constructor
  · intro h
    have hdigit : IsHexDigit (Utf8.ofAscii y) := by
      cases hd : toDigit (Utf8.ofAscii y) with
      | none =>
        rw [fromDigits, hd] at h
        cases h
      | some d => exact isHexDigit_of_toDigit hd
    obtain ⟨d, hd, hlt, hchar⟩ := exists_toDigit hdigit
    rw [hread hd hlt] at h
    cases h
    exact ⟨hdigit, by rw [lowerHex_ofDigits hn hlt, hchar]⟩
  · rintro ⟨hdigit, hv⟩
    obtain ⟨d, hd, hlt, hchar⟩ := exists_toDigit hdigit
    rw [hread hd hlt]
    rw [← hchar, ← lowerHex_ofDigits hn hlt] at hv
    rw [lowerHex_injective hv]

theorem fromDigits_pair (x y v : UInt8) :
    fromDigits 0 [x, y] = .ok v ↔ IsHexDigit (Utf8.ofAscii x) ∧ IsHexDigit (Utf8.ofAscii y) ∧
      lowerHex v = [(Utf8.ofAscii x).toLower, (Utf8.ofAscii y).toLower] := by
  by_cases hdigit : IsHexDigit (Utf8.ofAscii x)
  · obtain ⟨d, hd, hlt, hchar⟩ := exists_toDigit hdigit
    have hfirst : fromDigits 0 [x, y] = fromDigits d [y] := by
      rw [fromDigits, hd]
      simp only [Nat.mul_zero, Nat.zero_add]
      rw [if_pos (by omega)]
    rw [hfirst, fromDigits_last hlt, hchar]
    exact (and_iff_right hdigit).symm
  · refine iff_of_false (fun h => ?_) fun h => hdigit h.1
    cases hd : toDigit (Utf8.ofAscii x) with
    | none =>
      rw [fromDigits, hd] at h
      cases h
    | some d => exact hdigit (isHexDigit_of_toDigit hd)

/-! ### Two characters -/

/-- What is read as a byte. -/
def IsPair (a b : Char) : Prop := (IsHexDigit a ∨ a = '+') ∧ IsHexDigit b

/-- How a character that was read is written. -/
def printed (c : Char) : Char := if c = '+' then '0' else c.toLower

theorem printed_of_isHexDigit {c : Char} (h : IsHexDigit c) : printed c = c.toLower := by
  refine if_neg ?_
  rintro rfl
  revert h
  decide

theorem eq_of_ofAscii_eq_plus {x : UInt8} (h : Utf8.ofAscii x = '+') : x = 43 := by
  have hall : ∀ n : Fin 256, Utf8.ofAscii (UInt8.ofFin n) = '+' → UInt8.ofFin n = 43 := by
    decide +kernel
  exact hall x.toFin h

/-- **Which texts of two characters are read.** -/
theorem fromStrRadix_pair (x y v : UInt8) :
    fromStrRadix [x, y] = .ok v ↔ IsPair (Utf8.ofAscii x) (Utf8.ofAscii y) ∧
      lowerHex v = [printed (Utf8.ofAscii x), printed (Utf8.ofAscii y)] := by
  rw [IsPair]
  by_cases hx : x = 43
  · subst hx
    have hplus : fromStrRadix [43, y] = fromDigits 0 [y] := rfl
    rw [hplus, fromDigits_last (by decide)]
    constructor
    · rintro ⟨hy, hv⟩
      exact ⟨⟨Or.inr rfl, hy⟩, by rw [hv, printed_of_isHexDigit hy]; rfl⟩
    · rintro ⟨⟨-, hy⟩, hv⟩
      exact ⟨hy, by rw [hv, printed_of_isHexDigit hy]; rfl⟩
  · have hdigits : fromStrRadix [x, y] = fromDigits 0 [x, y] := by
      rw [fromStrRadix]
      · exact List.cons_ne_nil _ _
      · exact fun h => hx (List.cons.inj h).1
      · exact fun _ h => hx (List.cons.inj h).1
    have hplus : Utf8.ofAscii x ≠ '+' := fun h => hx (eq_of_ofAscii_eq_plus h)
    rw [hdigits, fromDigits_pair, or_iff_left hplus]
    constructor
    · rintro ⟨hx, hy, hv⟩
      exact ⟨⟨hx, hy⟩, by rw [hv, printed_of_isHexDigit hx, printed_of_isHexDigit hy]⟩
    · rintro ⟨⟨hx, hy⟩, hv⟩
      exact ⟨hx, hy, by rw [hv, printed_of_isHexDigit hx, printed_of_isHexDigit hy]⟩

/-! ### Any number of bytes -/

/-- What is read as bytes, two characters each. -/
def IsPairs : List Char → Prop
  | [] => True
  | [_] => False
  | a :: b :: rest => IsPair a b ∧ IsPairs rest

theorem IsPair.toNat_lt {a b : Char} (h : IsPair a b) : a.toNat < 128 ∧ b.toNat < 128 := by
  refine ⟨?_, h.2.toNat_lt⟩
  rcases h.1 with ha | rfl
  · exact ha.toNat_lt
  · decide

theorem IsPairs.toNat_lt {cs : List Char} (h : IsPairs cs) : ∀ c ∈ cs, c.toNat < 128 := by
  induction cs using IsPairs.induct with
  | case1 => exact List.forall_mem_nil _
  | case2 a => exact h.elim
  | case3 a b rest ih =>
    exact List.forall_mem_cons.mpr ⟨h.1.toNat_lt.1,
      List.forall_mem_cons.mpr ⟨h.1.toNat_lt.2, ih h.2⟩⟩

/-- Without a plus sign, pairs are digits. -/
theorem isPairs_iff {cs : List Char} (h : cs.length % 2 = 0) :
    IsPairs cs ∧ '+' ∉ cs ↔ ∀ c ∈ cs, IsHexDigit c := by
  induction cs using IsPairs.induct with
  | case1 => exact iff_of_true ⟨trivial, List.not_mem_nil⟩ (List.forall_mem_nil _)
  | case2 a => cases h
  | case3 a b rest ih =>
    have hplus : ∀ {c}, IsHexDigit c → '+' ≠ c := by
      rintro c hc rfl
      revert hc
      decide
    have hrest := ih (by rw [List.length_cons, List.length_cons] at h; omega)
    rw [List.forall_mem_cons, List.forall_mem_cons, ← hrest]
    constructor
    · rintro ⟨⟨⟨ha, hb⟩, hpairs⟩, hmem⟩
      obtain ⟨hne, hmem⟩ := not_or.mp (mt List.mem_cons.mpr hmem)
      exact ⟨ha.resolve_right (Ne.symm hne), hb, hpairs, fun h => hmem (List.mem_cons_of_mem _ h)⟩
    · rintro ⟨ha, hb, hpairs, hmem⟩
      refine ⟨⟨⟨Or.inl ha, hb⟩, hpairs⟩, fun h => ?_⟩
      rcases List.mem_cons.mp h with h | h
      · exact hplus ha h
      · rcases List.mem_cons.mp h with h | h
        · exact hplus hb h
        · exact hmem h

theorem IsPair.exists_lowerHex {a b : Char} (h : IsPair a b) :
    ∃ v, lowerHex v = [printed a, printed b] := by
  obtain ⟨n, -, hn, hb⟩ := exists_toDigit h.2
  rw [printed_of_isHexDigit h.2, ← hb]
  rcases h.1 with ha | rfl
  · obtain ⟨m, -, hm, ha'⟩ := exists_toDigit ha
    rw [printed_of_isHexDigit ha, ← ha']
    exact ⟨_, lowerHex_ofDigits hm hn⟩
  · exact ⟨_, lowerHex_ofDigits (show 0 < 16 by decide) hn⟩

theorem IsPairs.exists_lowerHex {cs : List Char} (h : IsPairs cs) :
    ∃ vs : List UInt8, 2 * vs.length = cs.length ∧ vs.flatMap lowerHex = cs.map printed := by
  induction cs using IsPairs.induct with
  | case1 => exact ⟨[], rfl, rfl⟩
  | case2 a => exact h.elim
  | case3 a b rest ih =>
    obtain ⟨v, hv⟩ := h.1.exists_lowerHex
    obtain ⟨vs, hlen, hvs⟩ := ih h.2
    refine ⟨v :: vs, ?_, ?_⟩
    · rw [List.length_cons, List.length_cons, List.length_cons]
      omega
    · rw [List.flatMap_cons, hv, hvs]
      rfl

theorem length_flatMap_lowerHex (vs : List UInt8) :
    (vs.flatMap lowerHex).length = 2 * vs.length := by
  induction vs with
  | nil => rfl
  | cons v vs ih =>
    rw [List.flatMap_cons, List.length_append, ih, lowerHex_eq, List.length_cons]
    simp only [List.length_cons, List.length_nil]
    omega

theorem flatMap_lowerHex_injective {vs ws : List UInt8}
    (h : vs.flatMap lowerHex = ws.flatMap lowerHex) : vs = ws := by
  have hlen : vs.length = ws.length := by
    have := congrArg List.length h
    rw [length_flatMap_lowerHex, length_flatMap_lowerHex] at this
    omega
  induction vs generalizing ws with
  | nil => exact (List.length_eq_zero_iff.mp hlen.symm).symm
  | cons v vs ih =>
    cases ws with
    | nil => cases hlen
    | cons w ws =>
      rw [List.flatMap_cons, List.flatMap_cons] at h
      obtain ⟨hhead, htail⟩ := List.append_inj h (by rw [lowerHex_eq, lowerHex_eq]; rfl)
      rw [lowerHex_injective hhead, ih htail (Nat.succ.inj hlen)]

theorem isHexDigit_digitChar : ∀ n : Fin 16,
    IsHexDigit (Nat.digitChar n) ∧ printed (Nat.digitChar n) = Nat.digitChar n := by
  decide +kernel

/-- What is written are digits, and is written again in the same way. -/
theorem isHexDigit_lowerHex {vs : List UInt8} {c : Char} (h : c ∈ vs.flatMap lowerHex) :
    IsHexDigit c ∧ printed c = c := by
  obtain ⟨v, -, hc⟩ := List.mem_flatMap.mp h
  have hv := v.toNat_lt
  rw [lowerHex_eq] at hc
  rcases List.mem_cons.mp hc with rfl | hc
  · exact isHexDigit_digitChar ⟨v.toNat / 16, by omega⟩
  · obtain rfl := List.mem_singleton.mp hc
    exact isHexDigit_digitChar ⟨v.toNat % 16, by omega⟩

/-! ### Order -/

/-- The byte of a digit. -/
def digitByte (n : ℕ) : UInt8 := UInt8.ofNat (Nat.digitChar n).toNat

theorem utf8EncodeChar_digitChar : ∀ n : Fin 16,
    String.utf8EncodeChar (Nat.digitChar n) = [digitByte n] := by
  decide +kernel

theorem compare_digitByte : ∀ m n : Fin 16,
    compare (digitByte m) (digitByte n) = compare m.val n.val := by
  decide +kernel

theorem bytes_lowerHex (vs : List UInt8) :
    Utf8.bytes (String.ofList (vs.flatMap lowerHex)) =
      vs.flatMap fun v => [digitByte (v.toNat / 16), digitByte (v.toNat % 16)] := by
  rw [Utf8.bytes_ofList, List.flatMap_assoc]
  refine List.flatMap_congr fun v _ => ?_
  have hv := v.toNat_lt
  have hhigh := utf8EncodeChar_digitChar ⟨v.toNat / 16, by omega⟩
  have hlow := utf8EncodeChar_digitChar ⟨v.toNat % 16, by omega⟩
  rw [lowerHex_eq, List.flatMap_cons, List.flatMap_singleton, hhigh, hlow]
  rfl

theorem compare_toNat (v w : UInt8) : compare v w = compare v.toNat w.toNat := by
  rcases Nat.lt_trichotomy v.toNat w.toNat with h | h | h
  · rw [Nat.compare_eq_lt.mpr h]
    exact Std.compare_eq_lt.mpr (UInt8.lt_iff_toNat_lt.mpr h)
  · rw [Nat.compare_eq_eq.mpr h, UInt8.toNat_inj.mp h]
    exact Std.ReflCmp.compare_self
  · rw [Nat.compare_eq_gt.mpr h]
    exact Std.compare_eq_gt.mpr (UInt8.lt_iff_toNat_lt.mpr h)

theorem compare_digits (b : ℕ) (m n : ℕ) :
    compare m n = (compare (m / b) (n / b)).then (compare (m % b) (n % b)) := by
  have hm := Nat.div_add_mod m b
  have hn := Nat.div_add_mod n b
  rcases Nat.lt_trichotomy (m / b) (n / b) with h | h | h
  · rw [Nat.compare_eq_lt.mpr h]
    exact Nat.compare_eq_lt.mpr (Nat.lt_of_div_lt_div h)
  · rw [h, Nat.compare_eq_eq.mpr rfl, Ordering.eq_then]
    rw [h] at hm
    rcases Nat.lt_trichotomy (m % b) (n % b) with h | h | h
    · rw [Nat.compare_eq_lt.mpr h]
      exact Nat.compare_eq_lt.mpr (by omega)
    · rw [Nat.compare_eq_eq.mpr h]
      exact Nat.compare_eq_eq.mpr (by omega)
    · rw [Nat.compare_eq_gt.mpr h]
      exact Nat.compare_eq_gt.mpr (by omega)
  · rw [Nat.compare_eq_gt.mpr h]
    exact Nat.compare_eq_gt.mpr (Nat.lt_of_div_lt_div h)

/-- **The texts are in the order of the bytes** that they stand for. -/
theorem compare_bytes_lowerHex : ∀ {vs ws : List UInt8}, vs.length = ws.length →
    compare (Utf8.bytes (String.ofList (vs.flatMap lowerHex)))
      (Utf8.bytes (String.ofList (ws.flatMap lowerHex))) = compare vs ws := by
  intro vs
  induction vs with
  | nil =>
    intro ws h
    rw [List.length_eq_zero_iff.mp h.symm]
    rfl
  | cons v vs ih =>
    intro ws h
    cases ws with
    | nil => cases h
    | cons w ws =>
      have hv := v.toNat_lt
      have hw := w.toNat_lt
      have hrest := ih (Nat.succ.inj h)
      have hcompare : ∀ (a b : UInt8) (as bs : List UInt8),
          compare (a :: as) (b :: bs) = (compare a b).then (compare as bs) :=
        fun _ _ _ _ => List.compareLex_cons_cons
      have hhigh := compare_digitByte ⟨v.toNat / 16, by omega⟩ ⟨w.toNat / 16, by omega⟩
      have hlow := compare_digitByte ⟨v.toNat % 16, by omega⟩ ⟨w.toNat % 16, by omega⟩
      rw [bytes_lowerHex, bytes_lowerHex] at hrest ⊢
      rw [List.flatMap_cons, List.flatMap_cons, hcompare v w, ← hrest, compare_toNat,
        compare_digits 16 v.toNat, ← hhigh, ← hlow, Ordering.then_assoc, ← hcompare, ← hcompare]
      rfl

end Hex
