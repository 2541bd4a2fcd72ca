import Mathlib.Data.List.Basic

/-!
# Text as bytes

The bytes of a text are its UTF-8 encoding.  A byte below 128 is a character of its own, so
cutting such bytes off the front of a text leaves a text (`isValidUTF8_append`), and gives its
first characters (`exists_of_append`).

`get` is the slice of a text between two places; there is none where a place is past the end or
inside a character.
-/

namespace Utf8

/-- The bytes of a text. -/
def bytes (s : String) : List UInt8 := s.toUTF8.data.toList

/-- The character with the number of this byte. -/
def ofAscii (b : UInt8) : Char := Char.ofNat b.toNat

/-- Whether a place is between two characters, or at an end. -/
def isCharBoundary (bs : List UInt8) (i : ℕ) : Bool :=
  if i = 0 then true
  else
    match bs[i]? with
    | some b => b < 128 || 192 ≤ b
    | none => i == bs.length

/-- The slice between two places. -/
def get (bs : List UInt8) (i j : ℕ) : Option (List UInt8) :=
  if i ≤ j ∧ isCharBoundary bs i = true ∧ isCharBoundary bs j = true then
    some ((bs.drop i).take (j - i))
  else none

/-! ### Encoding -/

theorem toByteArray_bytes (s : String) : (bytes s).toByteArray = s.toByteArray := by
  apply ByteArray.ext
  rw [bytes, List.data_toByteArray, Array.toArray_toList]
  rfl

theorem bytes_inj {s t : String} : bytes s = bytes t ↔ s = t := by
  refine ⟨fun h => ?_, fun h => by rw [h]⟩
  rw [← String.toByteArray_inj, ← toByteArray_bytes, h, toByteArray_bytes]

theorem data_utf8Encode (cs : List Char) :
    cs.utf8Encode.data.toList = cs.flatMap String.utf8EncodeChar := by
  rw [List.utf8Encode, List.data_toByteArray]

theorem bytes_ofList (cs : List Char) :
    bytes (String.ofList cs) = cs.flatMap String.utf8EncodeChar := by
  rw [bytes, String.toUTF8_eq_toByteArray, String.toByteArray_ofList, data_utf8Encode]

theorem bytes_append (s t : String) : bytes (s ++ t) = bytes s ++ bytes t := by
  rw [bytes, String.toUTF8_eq_toByteArray, String.toByteArray_append, ByteArray.data_append,
    Array.toList_append]
  rfl

theorem utf8EncodeChar_ofAscii {b : UInt8} (h : b < 128) :
    String.utf8EncodeChar (ofAscii b) = [b] := by
  have hlt : b.toNat < 128 := UInt8.lt_iff_toNat_lt.mp h
  have hval : (ofAscii b).val.toNat = b.toNat := by
    have hvalid : b.toNat.isValidChar := Or.inl (by omega)
    rw [ofAscii, Char.ofNat, dif_pos hvalid]
    rfl
  rw [String.utf8EncodeChar, hval]
  simp [show b.toNat ≤ 127 by omega]

/-! ### Texts that begin with ASCII -/

theorem ofAscii_ofNat {c : Char} (h : c.toNat < 128) : ofAscii (UInt8.ofNat c.toNat) = c := by
  rw [ofAscii, UInt8.toNat_ofNat_of_lt' (Nat.lt_trans h (by decide)), Char.ofNat_toNat]

theorem lt_of_toNat_ofAscii_lt {b : UInt8} (h : (ofAscii b).toNat < 128) : b < 128 := by
  have hall : ∀ n : Fin 256, (ofAscii (UInt8.ofFin n)).toNat < 128 → UInt8.ofFin n < 128 := by
    decide +kernel
  exact hall b.toFin h

/-- Characters below 128 are bytes. -/
theorem exists_map_ofAscii {cs : List Char} (h : ∀ c ∈ cs, c.toNat < 128) :
    ∃ as : List UInt8, as.map ofAscii = cs ∧ ∀ a ∈ as, a < 128 := by
  induction cs with
  | nil => exact ⟨[], rfl, List.forall_mem_nil _⟩
  | cons c cs ih =>
    obtain ⟨hc, hcs⟩ := List.forall_mem_cons.mp h
    obtain ⟨as, hmap, has⟩ := ih hcs
    have hchar := ofAscii_ofNat hc
    refine ⟨UInt8.ofNat c.toNat :: as, by rw [List.map_cons, hchar, hmap], ?_⟩
    refine List.forall_mem_cons.mpr ⟨lt_of_toNat_ofAscii_lt ?_, has⟩
    rw [hchar]
    exact hc

theorem bytes_ofAscii {as : List UInt8} (h : ∀ a ∈ as, a < 128) :
    bytes (String.ofList (as.map ofAscii)) = as := by
  induction as with
  | nil => rfl
  | cons a as ih =>
    obtain ⟨ha, has⟩ := List.forall_mem_cons.mp h
    have hrest := ih has
    rw [bytes_ofList] at hrest ⊢
    rw [List.map_cons, List.flatMap_cons, utf8EncodeChar_ofAscii ha, hrest]
    rfl

theorem isValidUTF8_ofAscii {as : List UInt8} (h : ∀ a ∈ as, a < 128) :
    as.toByteArray.IsValidUTF8 := by
  rw [← bytes_ofAscii h, toByteArray_bytes]
  exact String.isValidUTF8 _

/-- **A cut behind ASCII** is no cut through a character. -/
theorem isValidUTF8_append {as bs : List UInt8} (h : ∀ a ∈ as, a < 128) :
    (as ++ bs).toByteArray.IsValidUTF8 ↔ bs.toByteArray.IsValidUTF8 := by
  induction as with
  | nil => rfl
  | cons a as ih =>
    obtain ⟨ha, has⟩ := List.forall_mem_cons.mp h
    have hcut := ByteArray.isValidUTF8_utf8Encode_singleton_append_iff (c := ofAscii a)
      (b := (as ++ bs).toByteArray)
    rw [List.utf8Encode_singleton, utf8EncodeChar_ofAscii ha, ← List.toByteArray_append] at hcut
    rw [← ih has, ← hcut]
    rfl

/-- **The first characters of a text** that begins with ASCII. -/
theorem exists_of_append {s : String} {as bs : List UInt8} (h : ∀ a ∈ as, a < 128)
    (hs : bytes s = as ++ bs) :
    ∃ t : String, s = String.ofList (as.map ofAscii) ++ t ∧ bytes t = bs := by
  have hvalid : bs.toByteArray.IsValidUTF8 := by
    rw [← isValidUTF8_append h, ← hs, toByteArray_bytes]
    exact String.isValidUTF8 s
  have hbytes : bytes (String.fromUTF8 bs.toByteArray hvalid) = bs := by
    show bs.toByteArray.data.toList = bs
    rw [List.data_toByteArray]
  refine ⟨String.fromUTF8 bs.toByteArray hvalid, ?_, hbytes⟩
  rw [← bytes_inj, bytes_append, bytes_ofAscii h, hbytes, hs]

/-! ### Slices -/

theorem firstByte_of_isUTF8FirstByte {b : UInt8} (h : b.IsUTF8FirstByte) :
    (b < 128 || 192 ≤ b) = true := by
  have hall : ∀ n : Fin 256, (UInt8.ofFin n).IsUTF8FirstByte →
      (UInt8.ofFin n < 128 || 192 ≤ UInt8.ofFin n) = true := by decide +kernel
  exact hall b.toFin h

theorem le_length_of_isCharBoundary {bs : List UInt8} {i : ℕ} (h : isCharBoundary bs i = true) :
    i ≤ bs.length := by
  rw [isCharBoundary] at h
  split at h
  · omega
  · split at h
    · rename_i b hget
      exact Nat.le_of_lt (List.getElem?_eq_some_iff.mp hget).1
    · exact Nat.le_of_eq (beq_iff_eq.mp h)

theorem isCharBoundary_append {s : String} {as bs : List UInt8} (h : ∀ a ∈ as, a < 128)
    (hs : bytes s = as ++ bs) : isCharBoundary (bytes s) as.length = true := by
  rw [isCharBoundary, hs]
  split
  · rfl
  · cases bs with
    | nil => simp
    | cons b bs =>
      have hvalid : (b :: bs).toByteArray.IsValidUTF8 := by
        rw [← isValidUTF8_append h, ← hs, toByteArray_bytes]
        exact String.isValidUTF8 s
      have hfirst := hvalid.isUTF8FirstByte_getElem_zero (by simp)
      rw [List.getElem?_append_right (Nat.le_refl _), Nat.sub_self, List.getElem?_cons_zero]
      exact firstByte_of_isUTF8FirstByte (by simpa using hfirst)

/-- A slice is there as long as all before it and in it is ASCII. -/
theorem get_append {s : String} {as bs cs : List UInt8} (has : ∀ a ∈ as, a < 128)
    (hbs : ∀ b ∈ bs, b < 128) (hs : bytes s = as ++ (bs ++ cs)) :
    get (bytes s) as.length (as.length + bs.length) = some bs := by
  have hfirst := isCharBoundary_append has hs
  rw [← List.append_assoc] at hs
  have hlast := isCharBoundary_append (List.forall_mem_append.mpr ⟨has, hbs⟩) hs
  rw [List.length_append] at hlast
  rw [get, if_pos ⟨Nat.le_add_right _ _, hfirst, hlast⟩, hs, List.append_assoc, List.drop_left,
    Nat.add_sub_cancel_left, List.take_left]

theorem eq_append_of_get {bs slice : List UInt8} {i j : ℕ} (h : get bs i j = some slice) :
    ∃ rest, bs.drop i = slice ++ rest ∧ slice.length = j - i := by
  rw [get] at h
  split at h
  · rename_i hplaces
    have hle := le_length_of_isCharBoundary hplaces.2.2
    cases h
    refine ⟨_, (List.take_append_drop (j - i) _).symm, ?_⟩
    rw [List.length_take, List.length_drop]
    omega
  · cases h

end Utf8
