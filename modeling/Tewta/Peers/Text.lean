import Tewta.Lib.Hex
import Tewta.Peers

/-!
# Peer ids as text

A peer id is printed as sixty-four hexadecimal digits, and the texts that are printed are in the
order of the ids.  `from_str` reads thirty-two slices of two bytes as numbers.  It takes a plus
sign for a first digit, and it does not look at what follows, so more texts are read than those
that are sixty-four digits (`fromStr_eq_ok`).
-/

namespace Tewta

open Hex

namespace PeerID

/-- `impl Display for PeerID`. -/
instance : ToString PeerID where
  toString self := String.ofList (self.bytes.toList.flatMap lowerHex)

/-- The loop of `from_str`, for `n` bytes from the `i`-th on. -/
def readBytes (s : Bytes) (i : ℕ) : ℕ → Except IntErrorKind Bytes
  | 0 => .ok []
  | n + 1 => do
    let byte ← fromStrRadix ((Utf8.get s (i * 2) (i * 2 + 2)).getD [])
    let bytes ← readBytes s (i + 1) n
    pure (byte :: bytes)

theorem readBytes_succ (s : Bytes) (i n : ℕ) {bytes : Bytes} :
    readBytes s i (n + 1) = .ok bytes ↔ ∃ byte rest,
      fromStrRadix ((Utf8.get s (i * 2) (i * 2 + 2)).getD []) = .ok byte ∧
        readBytes s (i + 1) n = .ok rest ∧ bytes = byte :: rest := by
  rw [readBytes]
  cases fromStrRadix ((Utf8.get s (i * 2) (i * 2 + 2)).getD []) with
  | error e => exact iff_of_false (fun h => nomatch h) fun ⟨_, _, h, _⟩ => nomatch h
  | ok byte =>
    cases readBytes s (i + 1) n with
    | error e => exact iff_of_false (fun h => nomatch h) fun ⟨_, _, _, h, _⟩ => nomatch h
    | ok rest =>
      constructor
      · intro h
        cases h
        exact ⟨byte, rest, rfl, rfl, rfl⟩
      · rintro ⟨byte', rest', hbyte, hrest, rfl⟩
        cases hbyte
        cases hrest
        rfl

theorem length_of_readBytes {s : Bytes} {i n : ℕ} {bytes : Bytes}
    (h : readBytes s i n = .ok bytes) : bytes.length = n := by
  induction n generalizing i bytes with
  | zero =>
    cases h
    rfl
  | succ n ih =>
    obtain ⟨byte, rest, -, hrest, rfl⟩ := (readBytes_succ s i n).mp h
    rw [List.length_cons, ih hrest]

/-- `impl FromStr for PeerID`. -/
def fromStr (s : String) : Except IntErrorKind PeerID :=
  match h : readBytes (Utf8.bytes s) 0 32 with
  | .ok bytes => .ok ⟨⟨bytes, length_of_readBytes h⟩⟩
  | .error e => .error e

/-! ### What is read -/

/-- The slice that is read for a byte is a pair that comes next. -/
theorem exists_pair_of_get {s : String} {before rest : Bytes}
    (hs : Utf8.bytes s = before ++ rest) {i : ℕ} (hi : before.length = i * 2) {byte : UInt8}
    (h : fromStrRadix ((Utf8.get (Utf8.bytes s) (i * 2) (i * 2 + 2)).getD []) = .ok byte) :
    ∃ x y rest', rest = x :: y :: rest' ∧ IsPair (Utf8.ofAscii x) (Utf8.ofAscii y) ∧
      lowerHex byte = [printed (Utf8.ofAscii x), printed (Utf8.ofAscii y)] := by
  cases hget : Utf8.get (Utf8.bytes s) (i * 2) (i * 2 + 2) with
  | none =>
    rw [hget] at h
    cases h
  | some slice =>
    obtain ⟨rest', hrest, hlen⟩ := Utf8.eq_append_of_get hget
    rw [hs, ← hi, List.drop_left] at hrest
    obtain ⟨x, y, rfl⟩ := List.length_eq_two.mp (show slice.length = 2 by omega)
    rw [hget, Option.getD_some] at h
    obtain ⟨hpair, hbyte⟩ := (fromStrRadix_pair x y byte).mp h
    exact ⟨x, y, rest', hrest, hpair, hbyte⟩

/-- The converse of `exists_pair_of_get`, for a pair behind ASCII. -/
theorem fromStrRadix_get {s : String} {before rest : Bytes} {x y byte : UInt8}
    (hbefore : ∀ b ∈ before, b < 128) (hs : Utf8.bytes s = before ++ x :: y :: rest) {i : ℕ}
    (hi : before.length = i * 2) (hpair : IsPair (Utf8.ofAscii x) (Utf8.ofAscii y))
    (hbyte : lowerHex byte = [printed (Utf8.ofAscii x), printed (Utf8.ofAscii y)]) :
    fromStrRadix ((Utf8.get (Utf8.bytes s) (i * 2) (i * 2 + 2)).getD []) = .ok byte := by
  obtain ⟨hx, hy⟩ := hpair.toNat_lt
  have hascii : ∀ b ∈ [x, y], b < 128 := by
    simp [Utf8.lt_of_toNat_ofAscii_lt hx, Utf8.lt_of_toNat_ofAscii_lt hy]
  have hget : Utf8.get (Utf8.bytes s) (i * 2) (i * 2 + 2) = some [x, y] := by
    rw [← hi]
    exact Utf8.get_append hbefore hascii hs
  rw [hget]
  exact (fromStrRadix_pair x y byte).mpr ⟨hpair, hbyte⟩

theorem behind_pair {s : String} {before rest : Bytes} {x y : UInt8}
    (hbefore : ∀ b ∈ before, b < 128) (hs : Utf8.bytes s = before ++ x :: y :: rest) {i : ℕ}
    (hi : before.length = i * 2) (hpair : IsPair (Utf8.ofAscii x) (Utf8.ofAscii y)) :
    (∀ b ∈ before ++ [x, y], b < 128) ∧ Utf8.bytes s = (before ++ [x, y]) ++ rest ∧
      (before ++ [x, y]).length = (i + 1) * 2 := by
  obtain ⟨hx, hy⟩ := hpair.toNat_lt
  refine ⟨List.forall_mem_append.mpr ⟨hbefore, ?_⟩, ?_, ?_⟩
  · simp [Utf8.lt_of_toNat_ofAscii_lt hx, Utf8.lt_of_toNat_ofAscii_lt hy]
  · rw [hs, List.append_assoc]
    rfl
  · rw [List.length_append, hi]
    simp only [List.length_cons, List.length_nil]
    omega

/-- **The loop reads pairs**, behind what it has read before. -/
theorem readBytes_eq_ok {s : String} {before rest : Bytes} (hbefore : ∀ b ∈ before, b < 128)
    (hs : Utf8.bytes s = before ++ rest) {i : ℕ} (hi : before.length = i * 2) (n : ℕ)
    (bytes : Bytes) :
    readBytes (Utf8.bytes s) i n = .ok bytes ↔ ∃ text after, rest = text ++ after ∧
      text.length = 2 * n ∧ IsPairs (text.map Utf8.ofAscii) ∧
        bytes.flatMap lowerHex = (text.map Utf8.ofAscii).map printed := by
  induction n generalizing before rest i bytes with
  | zero =>
    constructor
    · intro h
      cases h
      exact ⟨[], rest, rfl, rfl, trivial, rfl⟩
    · rintro ⟨text, after, rfl, hlen, -, hbytes⟩
      obtain rfl := List.length_eq_zero_iff.mp hlen
      have hnil : bytes = [] := flatMap_lowerHex_injective hbytes
      rw [hnil, readBytes]
  | succ n ih =>
    rw [readBytes_succ]
    constructor
    · rintro ⟨byte, bytes', hbyte, hbytes', rfl⟩
      obtain ⟨x, y, rest', rfl, hpair, hbyte⟩ := exists_pair_of_get hs hi hbyte
      obtain ⟨hbefore', hs', hi'⟩ := behind_pair hbefore hs hi hpair
      obtain ⟨text, after, rfl, hlen, hpairs, hbytes⟩ := (ih hbefore' hs' hi' bytes').mp hbytes'
      refine ⟨x :: y :: text, after, rfl, ?_, ⟨hpair, hpairs⟩, ?_⟩
      · rw [List.length_cons, List.length_cons, hlen]
        omega
      · rw [List.flatMap_cons, hbyte, hbytes]
        rfl
    · rintro ⟨text, after, rfl, hlen, hpairs, hbytes⟩
      match text, hlen, hpairs with
      | x :: y :: text, hlen, ⟨hpair, hpairs⟩ =>
        obtain ⟨hbefore', hs', hi'⟩ := behind_pair hbefore hs hi hpair
        cases bytes with
        | nil => cases hbytes
        | cons b bytes =>
          have hbytes : lowerHex b ++ bytes.flatMap lowerHex =
              [printed (Utf8.ofAscii x), printed (Utf8.ofAscii y)] ++
                (text.map Utf8.ofAscii).map printed := hbytes
          obtain ⟨hb, htail⟩ := List.append_inj hbytes (by rw [lowerHex_eq]; rfl)
          refine ⟨b, bytes, fromStrRadix_get hbefore hs hi hpair hb,
            (ih hbefore' hs' hi' bytes).mpr ⟨text, after, rfl, ?_, hpairs, htail⟩, rfl⟩
          rw [List.length_cons, List.length_cons] at hlen
          omega

theorem fromStr_eq_ok_iff {s : String} {p : PeerID} :
    fromStr s = .ok p ↔ readBytes (Utf8.bytes s) 0 32 = .ok p.bytes.toList := by
  rw [fromStr]
  split
  · rename_i bytes hbytes
    refine Iff.trans ?_ (Eq.congr_left hbytes).symm
    constructor
    · intro h
      cases h
      rfl
    · intro h
      cases h
      rfl
  · rename_i e he
    exact iff_of_false (fun h => nomatch h) fun h => nomatch he.symm.trans h

/-- **What is read, and as what**: pairs of characters, up to the sixty-fourth. -/
theorem fromStr_eq_ok {s : String} {p : PeerID} :
    fromStr s = .ok p ↔ ∃ text rest, s.toList = text ++ rest ∧ text.length = 64 ∧
      IsPairs text ∧ toString p = String.ofList (text.map printed) := by
  have hprint : ∀ {text : List Char}, toString p = String.ofList text ↔
      p.bytes.toList.flatMap lowerHex = text := String.ofList_inj
  rw [fromStr_eq_ok_iff, readBytes_eq_ok (List.forall_mem_nil _) (List.nil_append _).symm rfl]
  constructor
  · rintro ⟨text, after, hs, hlen, hpairs, hbytes⟩
    have hascii : ∀ b ∈ text, b < 128 := fun b hb =>
      Utf8.lt_of_toNat_ofAscii_lt (hpairs.toNat_lt _ (List.mem_map_of_mem hb))
    obtain ⟨t, ht, -⟩ := Utf8.exists_of_append hascii hs
    refine ⟨text.map Utf8.ofAscii, t.toList, ?_, ?_, hpairs, hprint.mpr hbytes⟩
    · rw [ht, String.toList_append, String.toList_ofList]
    · rw [List.length_map, hlen]
  · rintro ⟨text, rest, hs, hlen, hpairs, hprinted⟩
    obtain ⟨bytes, rfl, hascii⟩ := Utf8.exists_map_ofAscii hpairs.toNat_lt
    rw [List.length_map] at hlen
    refine ⟨bytes, Utf8.bytes (String.ofList rest), ?_, hlen, hpairs, hprint.mp hprinted⟩
    rw [← String.ofList_toList (s := s), hs, String.ofList_append, Utf8.bytes_append,
      Utf8.bytes_ofAscii hascii]

/-! ### What is printed -/

theorem toList_toString (p : PeerID) :
    (toString p).toList = p.bytes.toList.flatMap lowerHex := String.toList_ofList

theorem length_toString (p : PeerID) : (toString p).length = 64 := by
  rw [← String.length_toList, toList_toString, length_flatMap_lowerHex, Bytes32.length_toList]

theorem isHexDigit_of_mem_toString {p : PeerID} {c : Char} (h : c ∈ (toString p).toList) :
    IsHexDigit c ∧ printed c = c := by
  rw [toList_toString] at h
  exact isHexDigit_lowerHex h

theorem fromStr_toString (p : PeerID) : fromStr (toString p) = .ok p := by
  have hlen : (toString p).toList.length = 64 := by rw [String.length_toList, length_toString]
  have hdigits : ∀ c ∈ (toString p).toList, IsHexDigit c :=
    fun c hc => (isHexDigit_of_mem_toString hc).1
  refine fromStr_eq_ok.mpr ⟨(toString p).toList, [], (List.append_nil _).symm, hlen, ?_, ?_⟩
  · exact ((isPairs_iff (by rw [hlen])).mpr hdigits).1
  · rw [List.map_congr_left fun c hc => (isHexDigit_of_mem_toString hc).2, List.map_id',
      String.ofList_toList]

/-- **Printing is undone by parsing**, and keeps the order. -/
theorem printing_is_undone :
    (∀ p : PeerID, (toString p).length = 64 ∧ fromStr (toString p) = .ok p) ∧
      ∀ p q : PeerID,
        compare (Utf8.bytes (toString p)) (Utf8.bytes (toString q)) = compare p q := by
  refine ⟨fun p => ⟨length_toString p, fromStr_toString p⟩, fun p q => ?_⟩
  exact compare_bytes_lowerHex (p.bytes.length_toList.trans q.bytes.length_toList.symm)

/-! ### Exactness -/

/-- A text is read if it is sixty-four hexadecimal digits, and is then what is printed, up to
letter case. -/
def ParsesExactly (s : String) : Prop :=
  ((∃ p, fromStr s = .ok p) ↔ s.length = 64 ∧ ∀ c ∈ s.toList, IsHexDigit c) ∧
    ∀ p, fromStr s = .ok p → toString p = s.toLower

/-- A text that begins with thirty-two pairs ends there, and has no plus sign. -/
def EndsPlain (s : String) : Prop :=
  ∀ text rest, s.toList = text ++ rest → text.length = 64 → IsPairs text → rest = [] ∧ '+' ∉ text

theorem exists_fromStr {s : String} {text rest : List Char} (hs : s.toList = text ++ rest)
    (hlen : text.length = 64) (hpairs : IsPairs text) : ∃ p, fromStr s = .ok p := by
  obtain ⟨bytes, hbytes, hprinted⟩ := hpairs.exists_lowerHex
  refine ⟨⟨⟨bytes, by omega⟩⟩, fromStr_eq_ok.mpr ⟨text, rest, hs, hlen, hpairs, ?_⟩⟩
  exact congrArg String.ofList hprinted

theorem toList_toLower (s : String) : s.toLower.toList = s.toList.map Char.toLower :=
  String.toList_map

theorem toLower_eq {s : String} (h : ∀ c ∈ s.toList, IsHexDigit c) :
    String.ofList (s.toList.map printed) = s.toLower := by
  rw [← String.toList_inj, String.toList_ofList, toList_toLower]
  exact List.map_congr_left fun c hc => printed_of_isHexDigit (h c hc)

theorem EndsPlain.parsesExactly {s : String} (h : EndsPlain s) : ParsesExactly s := by
  have hread : ∀ {p}, fromStr s = .ok p →
      (s.length = 64 ∧ ∀ c ∈ s.toList, IsHexDigit c) ∧ toString p = s.toLower := by
    intro p hp
    obtain ⟨text, rest, hs, hlen, hpairs, hprinted⟩ := fromStr_eq_ok.mp hp
    obtain ⟨rfl, hplus⟩ := h text rest hs hlen hpairs
    rw [List.append_nil] at hs
    subst hs
    have hdigits := (isPairs_iff (by rw [hlen])).mp ⟨hpairs, hplus⟩
    exact ⟨⟨by rw [← String.length_toList, hlen], hdigits⟩, by rw [hprinted, toLower_eq hdigits]⟩
  refine ⟨⟨fun ⟨p, hp⟩ => (hread hp).1, ?_⟩, fun p hp => (hread hp).2⟩
  rintro ⟨hlen, hdigits⟩
  rw [← String.length_toList] at hlen
  exact exists_fromStr (List.append_nil _).symm hlen ((isPairs_iff (by rw [hlen])).mpr hdigits).1

theorem ParsesExactly.endsPlain {s : String} (h : ParsesExactly s) : EndsPlain s := by
  intro text rest hs hlen hpairs
  obtain ⟨hlen', hdigits⟩ := h.1.mp (exists_fromStr hs hlen hpairs)
  rw [hs] at hdigits
  rw [← String.length_toList, hs, List.length_append] at hlen'
  refine ⟨List.length_eq_zero_iff.mp (by omega), ?_⟩
  exact ((isPairs_iff (by rw [hlen])).mpr fun c hc => hdigits c (List.mem_append_left _ hc)).2

/-! ### What is printed, and what denotes the same id -/

theorem toLower_toString (p : PeerID) : (toString p).toLower = toString p := by
  rw [← toLower_eq fun c hc => (isHexDigit_of_mem_toString hc).1,
    List.map_congr_left fun c hc => (isHexDigit_of_mem_toString hc).2, List.map_id',
    String.ofList_toList]

theorem endsPlain_toString (p : PeerID) : EndsPlain (toString p) := by
  refine ParsesExactly.endsPlain ⟨iff_of_true ⟨p, fromStr_toString p⟩ ?_, fun q hq => ?_⟩
  · exact ⟨length_toString p, fun c hc => (isHexDigit_of_mem_toString hc).1⟩
  · rw [fromStr_toString] at hq
    cases hq
    exact (toLower_toString p).symm

theorem endsPlain_of_toLower {s : String} {p : PeerID} (h : s.toLower = toString p) :
    EndsPlain s := by
  have hlower : s.toList.map Char.toLower = (toString p).toList := by
    rw [← h, toList_toLower]
  intro text rest hs hlen _
  have hlength := congrArg List.length hlower
  rw [List.length_map, String.length_toList (s := toString p), length_toString, hs,
    List.length_append] at hlength
  refine ⟨List.length_eq_zero_iff.mp (by omega), fun hplus => ?_⟩
  have hmem : ('+').toLower ∈ (toString p).toList := by
    rw [← hlower, hs]
    exact List.mem_map_of_mem (List.mem_append_left _ hplus)
  exact absurd (isHexDigit_of_mem_toString hmem).1 (by decide)

/-- **Parsing is exact** for the texts that begin with no thirty-two pairs or end there without a
plus sign; and among these no two denote the same id, other than by letter case. -/
theorem parsing_is_exact_iff (s : String) :
    (ParsesExactly s ↔ EndsPlain s) ∧
      ((∀ t, EndsPlain t → ∀ p, fromStr s = .ok p → fromStr t = .ok p → s.toLower = t.toLower) ↔
        EndsPlain s) := by
  refine ⟨⟨ParsesExactly.endsPlain, EndsPlain.parsesExactly⟩, fun h => ?_,
    fun h t ht p hs ht' => ?_⟩
  · intro text rest hs hlen hpairs
    obtain ⟨p, hp⟩ := exists_fromStr hs hlen hpairs
    have hlower := h (toString p) (endsPlain_toString p) p hp (fromStr_toString p)
    rw [toLower_toString] at hlower
    exact endsPlain_of_toLower hlower text rest hs hlen hpairs
  · rw [← h.parsesExactly.2 p hs, ht.parsesExactly.2 p ht']

set_option maxRecDepth 4000 in
/-- Sixty-four zeros and something else, or with a plus sign for the first. -/
theorem parsing_is_not_exact :
    ¬ ParsesExactly "0000000000000000000000000000000000000000000000000000000000000000!" ∧
    ¬ ParsesExactly "+000000000000000000000000000000000000000000000000000000000000000" ∧
    ∃ p, fromStr "0000000000000000000000000000000000000000000000000000000000000000!" = .ok p ∧
      fromStr "+000000000000000000000000000000000000000000000000000000000000000" = .ok p := by
  have hlong : fromStr "0000000000000000000000000000000000000000000000000000000000000000!" =
      .ok ⟨⟨List.replicate 32 0, rfl⟩⟩ := rfl
  have hplus : fromStr "+000000000000000000000000000000000000000000000000000000000000000" =
      .ok ⟨⟨List.replicate 32 0, rfl⟩⟩ := rfl
  refine ⟨fun h => ?_, fun h => ?_, _, hlong, hplus⟩
  · exact absurd (h.1.mp ⟨_, hlong⟩).1 (by decide)
  · exact absurd ((h.1.mp ⟨_, hplus⟩).2 '+' (by decide)) (by decide)

end PeerID

end Tewta
