import Tewta.Handshake.Machine
import Tewta.Lib.Duplex
import Tewta.Node.Connections

/-!
# The course of an honest handshake

Between two honest ends of one stream, a call of `handshake_raw` that meets no
error goes through ten stages, and all that goes into them is known from the
start: `courseStage` is the stage at each of the ten points, `sentBefore` and
`readBefore` count the frames written and read by then.  `exists_course` gets the
four frames of each end out of what the crates document.
-/

namespace Tewta

open ByteString PeerID Duplex

variable {PrivateKey Seed : Type} {crates : Crates Bytes PrivateKey Seed}

/-- The two ends of a stream, by side. -/
abbrev Ends (crates : Crates Bytes PrivateKey Seed) := Side → Endpoint crates

/-! ### What honest ends rely on -/

/-- The crates do what they document for the packets of these two ends: what is
encoded is decoded, what is encrypted for a node is decrypted by it, the public
key of a node is accepted, and no frame reaches the limit. -/
structure Reliable (crates : Crates Bytes PrivateKey Seed) (ends : Ends crates) : Prop where
  decodes : ∀ p body, crates.rawBytes p = .ok body → crates.fromRawBytes body = .ok p
  encodes : ∀ k, ∀ p ∈ [versionPacket, (ends k).rsaPacket, (ends k).ehloPacket],
    ∃ body, crates.rawBytes p = .ok body ∧ body.length < maxPacketSize
  accepts : ∀ k, crates.newRsaPublicKey (ends k).identity.rsaPublicKey.n
    (ends k).identity.rsaPublicKey.e = .ok (ends k).identity.rsaPublicKey
  encrypts : ∀ k, ∃ body cipher,
    crates.rawBytes ((ends k).aesPacket (ends k.other).draws.nonce) = .ok body ∧
    crates.encrypt (ends k.other).identity.rsaPublicKey (ends k).draws.seed body = .ok cipher ∧
    cipher.length < maxPacketSize
  decrypts : ∀ k seed body cipher,
    crates.encrypt (ends k).identity.rsaPublicKey seed body = .ok cipher →
    crates.decrypt (ends k).identity.rsaPrivateKey cipher = .ok body

/-- Two different nodes, each expecting the other or nobody in particular. -/
structure Distinct (ends : Ends crates) : Prop where
  ne : (ends .left).identity.peerId ≠ (ends .right).identity.peerId
  expected : ∀ k, (ends k).expectedPeerId = none ∨
    (ends k).expectedPeerId = some (ends k.other).identity.peerId

/-- The key of two ends: the part of the lower peer id first. -/
def sharedAesKey (ends : Ends crates) : Bytes :=
  if compare (ends .left).identity.peerId (ends .right).identity.peerId = .lt then
    (ends .left).draws.aesKeyPart ++ (ends .right).draws.aesKeyPart
  else (ends .right).draws.aesKeyPart ++ (ends .left).draws.aesKeyPart

theorem sharedAesKey_length (ends : Ends crates) : (sharedAesKey ends).length = 32 := by
  rw [sharedAesKey]
  split <;> rw [List.length_append, (ends .left).draws.aesKeyPart_length,
    (ends .right).draws.aesKeyPart_length]

/-- The two ends hold each other's id and address, and the same key. -/
def agreed (ends : Ends crates) (k : Side) : Stage :=
  .ok (ends k.other).identity.peerId (ends k.other).identity.addr (sharedAesKey ends)

section Received

variable {ends : Ends crates}

theorem Distinct.ne_other (h : Distinct ends) (k : Side) :
    (ends k).identity.peerId ≠ (ends k.other).identity.peerId := by
  cases k with
  | left => exact h.ne
  | right => exact h.ne.symm

/-- **The same way round**: each end puts the two parts in the order in which
the other does. -/
theorem concatAesKeyParts_eq (h : Distinct ends) (k : Side) :
    concatAesKeyParts (ends k).identity.peerId (ends k.other).identity.peerId
      (ends k).draws.aesKeyPart (ends k.other).draws.aesKeyPart = .ok (sharedAesKey ends) := by
  have hne : compare (ends .left).identity.peerId (ends .right).identity.peerId ≠ .eq :=
    fun heq => h.ne (Std.LawfulEqOrd.eq_of_compare heq)
  have hswap : compare (ends .right).identity.peerId (ends .left).identity.peerId =
      (compare (ends .left).identity.peerId (ends .right).identity.peerId).swap :=
    Std.OrientedOrd.eq_swap
  rw [concatAesKeyParts, sharedAesKey]
  cases k with
  | left =>
    rw [Side.other]
    cases hc : compare (ends .left).identity.peerId (ends .right).identity.peerId with
    | lt => simp
    | eq => exact absurd hc hne
    | gt => simp
  | right =>
    rw [Side.other, hswap]
    cases hc : compare (ends .left).identity.peerId (ends .right).identity.peerId with
    | lt => simp
    | eq => exact absurd hc hne
    | gt => simp

/-! ### The frames -/

theorem received_version {ep : Endpoint crates} {body : Bytes}
    (h : crates.fromRawBytes body = .ok versionPacket) :
    Stage.recvVersion.received ep body = .sendRsa := by
  rw [Stage.received, decoded, h]
  exact receivedVersion_versionPacket

theorem received_rsa (hr : Reliable crates ends) (hd : Distinct ends) (k : Side)
    {body : Bytes} (h : crates.fromRawBytes body = .ok (ends k.other).rsaPacket) :
    Stage.recvRsa.received (ends k) body =
      .checkPool (ends k.other).identity.rsaPublicKey (ends k.other).draws.nonce := by
  have hkey := hr.accepts k.other
  have hid : (ends k).identity.peerId ≠
      fromRsaPublicKey crates.sha256 (ends k.other).identity.rsaPublicKey := by
    rw [← (ends k.other).identity.peerId_eq]
    exact hd.ne_other k
  rw [Stage.received, decoded, h]
  simp only [Endpoint.rsaPacket, receivedRsa, ofLe_leMin, (ends k.other).draws.nonce_length, hkey,
    ne_eq, not_true_eq_false, if_false, checkIdentity, if_neg hid]
  rcases hd.expected k with hexp | hexp
  · rw [hexp]
  · rw [hexp]
    simp only [← (ends k.other).identity.peerId_eq, not_true_eq_false, if_false]

theorem received_aes (hd : Distinct ends) (k : Side)
    {body cipher : Bytes}
    (hc : crates.decrypt (ends k).identity.rsaPrivateKey cipher = .ok body)
    (h : crates.fromRawBytes body = .ok ((ends k.other).aesPacket (ends k).draws.nonce)) :
    (Stage.recvAes (ends k.other).identity.rsaPublicKey).received (ends k) cipher =
      .sendEhlo (ends k.other).identity.peerId (sharedAesKey ends) := by
  have hkey := concatAesKeyParts_eq hd k
  rw [Stage.received, hc]
  simp only [decoded, h, Endpoint.aesPacket, receivedAes,
    (ends k.other).draws.aesKeyPart_length, ne_eq, not_true_eq_false, if_false,
    ← (ends k.other).identity.peerId_eq, hkey]

theorem received_ehlo {k : Side} {aesKey body : Bytes} {peerId : PeerID}
    (h : crates.fromRawBytes body = .ok (ends k.other).ehloPacket) :
    (Stage.recvEhlo peerId aesKey).received (ends k) body =
      .ok peerId (ends k.other).identity.addr aesKey := by
  rw [Stage.received, decoded, h]
  rfl

theorem encode_of_rawBytes {p : Packet} {body : Bytes} (h : crates.rawBytes p = .ok body) :
    encode crates p = .ok body := by rw [encode, h]

end Received

/-! ### The course -/

/-- The stage at each point of the handshake of two honest ends. -/
def courseStage (ends : Ends crates) (k : Side) : ℕ → Stage
  | 0 => .sendVersion
  | 1 => .recvVersion
  | 2 => .sendRsa
  | 3 => .recvRsa
  | 4 => .checkPool (ends k.other).identity.rsaPublicKey (ends k.other).draws.nonce
  | 5 => .sendAes (ends k.other).identity.rsaPublicKey (ends k.other).draws.nonce
  | 6 => .recvAes (ends k.other).identity.rsaPublicKey
  | 7 => .sendEhlo (ends k.other).identity.peerId (sharedAesKey ends)
  | 8 => .recvEhlo (ends k.other).identity.peerId (sharedAesKey ends)
  | _ => agreed ends k

/-- The point of a stage. -/
def Stage.point : Stage → ℕ
  | .sendVersion => 0
  | .recvVersion => 1
  | .sendRsa => 2
  | .recvRsa => 3
  | .checkPool _ _ => 4
  | .sendAes _ _ => 5
  | .recvAes _ => 6
  | .sendEhlo _ _ => 7
  | .recvEhlo _ _ => 8
  | .ok _ _ _ => 9
  | .err _ => 10

/-- The frames written before a point. -/
def sentBefore : ℕ → ℕ
  | 0 => 0
  | 1 => 1
  | 2 => 1
  | 3 => 2
  | 4 => 2
  | 5 => 2
  | 6 => 3
  | 7 => 3
  | _ => 4

/-- The frames read before a point. -/
def readBefore : ℕ → ℕ
  | 0 => 0
  | 1 => 0
  | 2 => 1
  | 3 => 1
  | 4 => 2
  | 5 => 2
  | 6 => 2
  | 7 => 3
  | 8 => 3
  | _ => 4

/-- The points at which a frame is written. -/
def IsSend (i : ℕ) : Prop := i = 0 ∨ i = 2 ∨ i = 5 ∨ i = 7

/-- The points at which a frame is read. -/
def IsRecv (i : ℕ) : Prop := i = 1 ∨ i = 3 ∨ i = 6 ∨ i = 8

/-- The frames of two honest ends: what each writes, and what the other makes of
it. -/
structure Course (ends : Ends crates) where
  frames : Side → List Bytes
  length_frames : ∀ k, (frames k).length = 4
  short : ∀ k, ∀ body ∈ frames k, body.length < maxPacketSize
  writes : ∀ k i, IsSend i → ∃ body, (frames k)[sentBefore i]? = some body ∧
    (courseStage ends k i).awaits (ends k) = .write (.ok body)
  reads : ∀ k i, IsRecv i → ∃ body, (frames k.other)[readBefore i]? = some body ∧
    (courseStage ends k i).received (ends k) body = courseStage ends k (i + 1)

section Course

variable {ends : Ends crates} {k : Side} {i : ℕ}

theorem point_courseStage (ends : Ends crates) (k : Side) (h : i ≤ 9) :
    (courseStage ends k i).point = i := by
  interval_cases i <;> rfl

theorem courseStage_sent (h : IsSend i) :
    (courseStage ends k i).sent = courseStage ends k (i + 1) := by
  rcases h with rfl | rfl | rfl | rfl <;> rfl

theorem courseStage_awaits_frame (h : IsRecv i) :
    (courseStage ends k i).awaits (ends k) = .frame := by
  rcases h with rfl | rfl | rfl | rfl <;> rfl

theorem courseStage_awaits_contains (ends : Ends crates) (k : Side) :
    (courseStage ends k 4).awaits (ends k) = .contains (ends k.other).identity.peerId :=
  congrArg Awaits.contains (ends k.other).identity.peerId_eq.symm

theorem courseStage_checked :
    (courseStage ends k 4).checked false = courseStage ends k 5 := rfl

theorem Course.take_frames (course : Course ends) (k : Side) :
    (course.frames k).take (sentBefore 9) = course.frames k :=
  List.take_of_length_le (course.length_frames k).le

theorem encryptedFor_eq {p : Packet} {body cipher : Bytes} {key : RsaPublicKey} {seed : Seed}
    (hbody : crates.rawBytes p = .ok body) (hcipher : crates.encrypt key seed body = .ok cipher) :
    encryptedFor crates key seed p = .ok cipher := by
  simp only [encryptedFor, hbody, hcipher]

/-- **An honest handshake runs its course**, by what the crates document. -/
theorem exists_course (hr : Reliable crates ends) (hd : Distinct ends) :
    Nonempty (Course ends) := by
  choose version hversion hvlen using fun k => hr.encodes k versionPacket (by simp)
  choose rsa hrsa hrlen using fun k => hr.encodes k (ends k).rsaPacket (by simp)
  choose aes cipher haes hcipher hclen using hr.encrypts
  choose ehlo hehlo helen using fun k => hr.encodes k (ends k).ehloPacket (by simp)
  refine ⟨fun k => [version k, rsa k, cipher k, ehlo k], fun k => rfl, fun k body hbody => ?_,
    fun k i hi => ?_, fun k i hi => ?_⟩
  · simp only [List.mem_cons, List.not_mem_nil, or_false] at hbody
    rcases hbody with rfl | rfl | rfl | rfl
    · exact hvlen k
    · exact hrlen k
    · exact hclen k
    · exact helen k
  · rcases hi with rfl | rfl | rfl | rfl
    · exact ⟨_, rfl, congrArg Awaits.write (encode_of_rawBytes (hversion k))⟩
    · exact ⟨_, rfl, congrArg Awaits.write (encode_of_rawBytes (hrsa k))⟩
    · exact ⟨_, rfl, congrArg Awaits.write (encryptedFor_eq (haes k) (hcipher k))⟩
    · exact ⟨_, rfl, congrArg Awaits.write (encode_of_rawBytes (hehlo k))⟩
  · have hc := hcipher k.other
    have ha := haes k.other
    rw [Side.other_other] at hc ha
    rcases hi with rfl | rfl | rfl | rfl
    · exact ⟨_, rfl, received_version (hr.decodes _ _ (hversion k.other))⟩
    · exact ⟨_, rfl, received_rsa hr hd k (hr.decodes _ _ (hrsa k.other))⟩
    · exact ⟨_, rfl, received_aes hd k (hr.decrypts k _ _ _ hc) (hr.decodes _ _ ha)⟩
    · exact ⟨_, rfl, received_ehlo (hr.decodes _ _ (hehlo k.other))⟩

end Course

end Tewta
