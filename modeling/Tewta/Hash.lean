import Tewta.Lib.Sha256

/-!
# Bytes and hashes

`Bytes32` is the `[u8; 32]` of the sources, the type of a digest and of a peer
id.  The functions that hash take the digest function as an argument
`sha256 : Bytes → Bytes32`, so that what is proved holds whatever it is;
`realSha256` is the function the `sha2` crate computes, for concrete runs.

`Hashable` is the trait of that name: a type says which bytes it feeds to the
hasher, and the blanket `impl Hash for T` digests them.
-/

namespace Tewta

/-- `Vec<u8>`. -/
abbrev Bytes := List UInt8

/-- `[u8; 32]`. -/
structure Bytes32 where
  toList : Bytes
  length_eq : toList.length = 32
  deriving DecidableEq

namespace Bytes32

@[ext] theorem ext {a b : Bytes32} (h : a.toList = b.toList) : a = b := by
  cases a; cases b; cases h; rfl

@[simp] theorem length_toList (a : Bytes32) : a.toList.length = 32 := a.length_eq

end Bytes32

/-- The digest function of the `sha2` crate. -/
def realSha256 (message : Bytes) : Bytes32 :=
  ⟨Sha256.digest message, Sha256.digest_length message⟩

/-- The bytes `update_hasher` feeds to the hasher for a value. -/
class Hashable (T : Type) where
  encode : T → Bytes

/-- `impl<T: Hashable> Hash for T`. -/
def Hashable.hash {T : Type} [Hashable T] (sha256 : Bytes → Bytes32) (t : T) : Bytes32 :=
  sha256 (Hashable.encode t)

end Tewta
