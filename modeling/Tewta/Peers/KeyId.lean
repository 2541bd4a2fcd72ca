import Tewta.Peers
import Tewta.Lib.ByteString

/-!
# The id of a key

`PeerID::from(&RsaPublicKey)` digests the little-endian exponent followed by the
little-endian modulus.  Both encodings are as short as they can be and nothing
marks where one ends, so two keys can feed the same string to the hasher:
`same_hashed_string_of_two_keys` gives a pair of them.

`hashedString_eq_iff` says which pairs do.  Apart from equal keys, they are the
pairs in which one key is the other with the low bytes of the modulus moved to
the top of the exponent, which changes the length of the exponent.
-/

namespace Tewta

open ByteString

/-- `rsa::RsaPublicKey`. -/
structure RsaPublicKey where
  e : ℕ
  n : ℕ
  deriving DecidableEq

/-- The keys that `RsaPublicKey::new` accepts for certain: an odd exponent below
`2 ^ 30` and a larger odd modulus. -/
structure RsaPublicKey.Accepted (key : RsaPublicKey) : Prop where
  odd_e : key.e % 2 = 1
  three_le_e : 3 ≤ key.e
  e_lt : key.e < 2 ^ 30
  odd_n : key.n % 2 = 1
  e_lt_n : key.e < key.n

namespace PeerID

/-- The string `PeerID::from` digests for a key. -/
def hashedString (key : RsaPublicKey) : Bytes := leMin key.e ++ leMin key.n

/-- `impl From<&RsaPublicKey> for PeerID`. -/
def fromRsaPublicKey (sha256 : Bytes → Bytes32) (key : RsaPublicKey) : PeerID :=
  ⟨sha256 (hashedString key)⟩

end PeerID

open PeerID

/-- One key is the other with low bytes of the modulus moved to the exponent. -/
def RsaPublicKey.Shifted (k l : RsaPublicKey) : Prop :=
  ByteString.Shifted k.e k.n l.e l.n ∨ ByteString.Shifted l.e l.n k.e k.n

theorem RsaPublicKey.eq_iff {k l : RsaPublicKey} : k = l ↔ k.e = l.e ∧ k.n = l.n := by
  cases k
  cases l
  rw [RsaPublicKey.mk.injEq]

theorem hashedString_eq_iff {k l : RsaPublicKey} (hke : k.e ≠ 0) (hkn : k.n ≠ 0) (hle : l.e ≠ 0)
    (hln : l.n ≠ 0) : hashedString k = hashedString l ↔ k = l ∨ k.Shifted l := by
  rw [RsaPublicKey.eq_iff, RsaPublicKey.Shifted]
  exact leMin_append_eq_iff hke hkn hle hln

/-- **What a peer id commits to.**  Two keys feed one string to the hasher
exactly when they are equal or shifted, and they are not shifted when their
exponents have encodings of one length.  So keys that share an id are equal or
shifted, or their strings are a collision of the digest function. -/
theorem peerId_commits_up_to_shift (sha256 : Bytes → Bytes32) (k l : RsaPublicKey)
    (hke : k.e ≠ 0) (hkn : k.n ≠ 0) (hle : l.e ≠ 0) (hln : l.n ≠ 0) :
    (hashedString k = hashedString l ↔ k = l ∨ k.Shifted l) ∧
      ((leMin k.e).length = (leMin l.e).length → hashedString k = hashedString l → k = l) ∧
      (fromRsaPublicKey sha256 k = fromRsaPublicKey sha256 l →
        k = l ∨ k.Shifted l ∨ (hashedString k ≠ hashedString l ∧
          sha256 (hashedString k) = sha256 (hashedString l))) := by
  have hiff := hashedString_eq_iff hke hkn hle hln
  refine ⟨hiff, fun hlen h => ?_, fun h => ?_⟩
  · exact RsaPublicKey.eq_iff.mpr (leMin_append_inj h hlen)
  · by_cases hs : hashedString k = hashedString l
    · rcases hiff.mp hs with h' | h'
      · exact Or.inl h'
      · exact Or.inr (Or.inl h')
    · exact Or.inr (Or.inr ⟨hs, congrArg PeerID.bytes h⟩)

/-- The exponent `3` with the modulus `0x01000101`, and the exponent `0x0103`
with the modulus `0x010001`: both strings are `03 01 01 00 01`. -/
theorem hashedString_three : hashedString ⟨3, 0x01000101⟩ = hashedString ⟨0x0103, 0x010001⟩ := by
  simp [hashedString, leMin]

theorem peerId_commits_up_to_shift_three :
    RsaPublicKey.Shifted ⟨3, 0x01000101⟩ ⟨0x0103, 0x010001⟩ := by
  have h := peerId_commits_up_to_shift realSha256 ⟨3, 0x01000101⟩ ⟨0x0103, 0x010001⟩
    (by norm_num) (by norm_num) (by norm_num) (by norm_num)
  rcases h.1.mp hashedString_three with h | h
  · exact absurd h (by decide)
  · exact h

/-- **Two keys with one id.** -/
theorem same_hashed_string_of_two_keys :
    ∃ k l : RsaPublicKey, k.Accepted ∧ l.Accepted ∧ k ≠ l ∧ hashedString k = hashedString l ∧
      fromRsaPublicKey realSha256 k = fromRsaPublicKey realSha256 l := by
  refine ⟨⟨3, 0x01000101⟩, ⟨0x0103, 0x010001⟩, ?_, ?_, by decide, hashedString_three, ?_⟩
  · constructor <;> norm_num
  · constructor <;> norm_num
  · rw [fromRsaPublicKey, fromRsaPublicKey, hashedString_three]

/-! ### Two small keys, for runs -/

def smallKeyA : RsaPublicKey := ⟨3, 33⟩

def smallKeyB : RsaPublicKey := ⟨3, 55⟩

theorem hashedString_smallKeyA : hashedString smallKeyA = [3, 33] := by
  simp [smallKeyA, hashedString, leMin]

theorem hashedString_smallKeyB : hashedString smallKeyB = [3, 55] := by
  simp [smallKeyB, hashedString, leMin]

theorem smallKeys_peerId_ne :
    fromRsaPublicKey realSha256 smallKeyA ≠ fromRsaPublicKey realSha256 smallKeyB := by
  intro h
  have hdigest := congrArg PeerID.bytes h
  simp only [fromRsaPublicKey, hashedString_smallKeyA, hashedString_smallKeyB] at hdigest
  exact absurd hdigest (by decide +kernel)

end Tewta
