import Mathlib.Data.List.Basic
import Tewta.Hash

/-!
# Peer ids

A peer id is thirty-two bytes.  `distance` is the XOR of two ids byte by byte,
`bucket` classifies another id by the first pair of bits in which the two
differ, `generateInBucket` goes the other way and makes an id of a given
bucket, and `matches` compares two ids under a bit mask.

A mask in the sources is a `Vec<u8>` that `matches` requires to have at most
thirty-two bytes, and that `on_packet` drops when it is longer.  Here it is a
`Mask`, which carries that bound.
-/

namespace Tewta

/-- The bits of a peer id that a discovery request asks about. -/
structure Mask where
  bytes : Bytes
  length_le : bytes.length ≤ 32

structure PeerID where
  bytes : Bytes32
  deriving DecidableEq

/-- Values of the DHT are filed under the id of the account they describe. -/
abbrev KeyID := PeerID

namespace PeerID

@[ext] theorem ext {a b : PeerID} (h : a.bytes = b.bytes) : a = b := by
  cases a; cases b; cases h; rfl

/-- A peer is listed together with its address. -/
instance : LawfulBEq (PeerID × String) := inferInstance

/-- `impl Ord for PeerID`: the lexicographic order of the bytes. -/
instance : Ord PeerID := ⟨fun a b => compare a.bytes.toList b.bytes.toList⟩

instance : Std.TransOrd PeerID where
  eq_swap {a b} :=
    Std.OrientedOrd.eq_swap (α := Bytes) (a := a.bytes.toList) (b := b.bytes.toList)
  isLE_trans {a b c} h h' :=
    Std.TransOrd.isLE_trans (α := Bytes) (a := a.bytes.toList) (b := b.bytes.toList)
      (c := c.bytes.toList) h h'

instance : Std.LawfulEqOrd PeerID where
  eq_of_compare {a b} h := by
    have hb := Std.LawfulEqOrd.eq_of_compare (α := Bytes) (a := a.bytes.toList)
      (b := b.bytes.toList) h
    exact ext (Bytes32.ext hb)

/-- `PeerID::distance`. -/
def distance (self other : PeerID) : Bytes32 :=
  ⟨self.bytes.toList.zipWith (· ^^^ ·) other.bytes.toList, by simp⟩

/-- The loop of `PeerID::matches` over the bytes of the mask. -/
def matchesBytes : Bytes → Bytes → Bytes → Bool
  | x :: self, y :: other, m :: mask =>
    if x &&& m ≠ y &&& m then false else matchesBytes self other mask
  | _, _, _ => true

/-- `PeerID::matches`. -/
def «matches» (self other : PeerID) (mask : Mask) : Bool :=
  matchesBytes self.bytes.toList other.bytes.toList mask.bytes

/-- The four matches of `PeerID::bucket` on the `i`-th byte of the distance.
Masked to a pair of bits the distance is one of the three values listed or
zero, where the next pair is looked at; the arm `unreachable!()` has no value
left. -/
def bucketInByte (i : ℕ) (distance : UInt8) : Option (ℕ × ℕ) :=
  match distance &&& 0b11000000 with
  | 0b01000000 => some (4 * i, 0)
  | 0b10000000 => some (4 * i, 1)
  | 0b11000000 => some (4 * i, 2)
  | _ =>
    match distance &&& 0b00110000 with
    | 0b00010000 => some (4 * i + 1, 0)
    | 0b00100000 => some (4 * i + 1, 1)
    | 0b00110000 => some (4 * i + 1, 2)
    | _ =>
      match distance &&& 0b00001100 with
      | 0b00000100 => some (4 * i + 2, 0)
      | 0b00001000 => some (4 * i + 2, 1)
      | 0b00001100 => some (4 * i + 2, 2)
      | _ =>
        match distance &&& 0b00000011 with
        | 0b00000001 => some (4 * i + 3, 0)
        | 0b00000010 => some (4 * i + 3, 1)
        | 0b00000011 => some (4 * i + 3, 2)
        | _ => none

/-- The loop of `PeerID::bucket`, from the `i`-th byte on. -/
def bucketFrom (i : ℕ) : Bytes → Bytes → Option (ℕ × ℕ)
  | x :: self, y :: other =>
    let distance := x ^^^ y
    if distance = 0 then bucketFrom (i + 1) self other
    else
      match bucketInByte i distance with
      | some bucket => some bucket
      | none => bucketFrom (i + 1) self other
  | _, _ => none

/-- `PeerID::bucket`. -/
def bucket (self other : PeerID) : Option (ℕ × ℕ) :=
  bucketFrom 0 self.bytes.toList other.bytes.toList

/-- What `generate_in_bucket` flips in the byte of the bucket, by
`bucket_level.rem_euclid(4)` and `bucket_id`. -/
def bucketPattern : ℕ → ℕ → UInt8
  | 0, 0 => 0b01000000
  | 0, 1 => 0b10000000
  | 0, 2 => 0b11000000
  | 1, 0 => 0b00010000
  | 1, 1 => 0b00100000
  | 1, 2 => 0b00110000
  | 2, 0 => 0b00000100
  | 2, 1 => 0b00001000
  | 2, 2 => 0b00001100
  | 3, 0 => 0b00000001
  | 3, 1 => 0b00000010
  | 3, 2 => 0b00000011
  | _, _ => 0

/-- `PeerID::generate_in_bucket`: a copy of the id with one pair of bits flipped
by the pattern.  The assertion on the arguments is the first line of the code. -/
def generateInBucket (self : PeerID) (bucketLevel bucketId : ℕ) : Option PeerID :=
  if bucketLevel < 128 ∧ bucketId < 3 then
    some ⟨⟨self.bytes.toList.modify (bucketLevel / 4)
      (· ^^^ bucketPattern (bucketLevel % 4) bucketId), by simp⟩⟩
  else none

theorem generateInBucket_eq (self : PeerID) {bucketLevel bucketId : ℕ} (hl : bucketLevel < 128)
    (hk : bucketId < 3) :
    self.generateInBucket bucketLevel bucketId =
      some ⟨⟨self.bytes.toList.modify (bucketLevel / 4)
        (· ^^^ bucketPattern (bucketLevel % 4) bucketId), by simp⟩⟩ := by
  rw [generateInBucket, if_pos ⟨hl, hk⟩]

/-- The id with the byte given, before zeros. -/
def ofByte (b : UInt8) : PeerID := ⟨⟨b :: List.replicate 31 0, rfl⟩⟩

end PeerID

end Tewta
