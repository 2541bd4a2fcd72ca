import Tewta.Handshake.Course
import Tewta.Lib.Framing

/-!
# Two honest ends agree

Two calls of `handshake_raw` on the two ends of one stream, byte by byte:
`Session` is a call together with the part of a frame it still has to write or
has already read, and `Duplex` runs the two ends over their queues.

`honest_handshakes_agree` is about every interleaving.  Each round of the
handshake is an exchange of frames (`exec_round`), so one particular run takes
both ends to a state in which each has the other's id and address and both have
the same key; since the two ends never race for anything, every other run leads
there as well.
-/

namespace Tewta

open ByteString PeerID Framing Transition Duplex

variable {PrivateKey Seed : Type} {crates : Crates Bytes PrivateKey Seed}

/-! ### One end of a stream -/

/-- A call of `handshake_raw` on a stream: at the beginning of a stage, with
bytes of the stage's frame left to write, or with bytes of it read. -/
inductive Session
  | enter (stage : Stage)
  | writing (stage : Stage) (left : Bytes)
  | reading (stage : Stage) (got : Bytes)
  deriving DecidableEq

/-- What a call does next, with the pool as it is when the handshake asks it. -/
def Session.act (ep : Endpoint crates) (pool : ConnectionPool) : Session → Action UInt8 Session
  | .enter stage =>
    match stage.awaits ep with
    | .write (.ok body) => .internal (.writing stage (frame body))
    | .write (.error e) => .internal (.enter (stage.failed e))
    | .frame => .internal (.reading stage [])
    | .contains peerId => .internal (.enter (stage.checked (pool.contains peerId)))
    | .returned => .halt
  | .writing stage [] => .internal (.enter stage.sent)
  | .writing stage (b :: left) => .write b (.writing stage left)
  | .reading stage got =>
    match parse maxPacketSize got with
    | .incomplete => .read fun b => .reading stage (got ++ [b])
    | .tooLarge => .internal (.enter (stage.failed .packetTooLarge))
    | .complete body _ => .internal (.enter (stage.received ep body))

section Session

variable {ep : Endpoint crates} {pool : ConnectionPool} {stage : Stage}

theorem writes_left (left : Bytes) :
    Writes (Session.act ep pool) (.writing stage left) left (.enter stage.sent) := by
  induction left with
  | nil => exact .internal rfl (.done _)
  | cons b left ih => exact .write rfl ih

theorem writes_frame {body : Bytes} (h : stage.awaits ep = .write (.ok body)) :
    Writes (Session.act ep pool) (.enter stage) (frame body) (.enter stage.sent) := by
  refine .internal ?_ (writes_left (frame body))
  rw [Session.act, h]

theorem reads_rest {body : Bytes} (hbody : body.length < maxPacketSize) :
    ∀ (rest got : Bytes), got ++ rest = frame body →
      Reads (Session.act ep pool) (.reading stage got) rest
        (.enter (stage.received ep body)) := by
  intro rest
  induction rest with
  | nil =>
    intro got hgot
    rw [List.append_nil] at hgot
    have hparse := parse_frame_append maxPacketSize_le hbody []
    rw [List.append_nil, ← hgot] at hparse
    exact .internal (by rw [Session.act, hparse]) (.done _)
  | cons b rest ih =>
    intro got hgot
    have hlen : got.length < (frame body).length := by
      rw [← hgot, List.length_append, List.length_cons]
      omega
    have hparse := parse_take_frame maxPacketSize_le hbody hlen
    rw [← hgot, List.take_left] at hparse
    exact .read (by rw [Session.act, hparse]) (ih (got ++ [b]) (by rw [← hgot]; simp))

theorem reads_frame {body : Bytes} (h : stage.awaits ep = .frame)
    (hbody : body.length < maxPacketSize) :
    Reads (Session.act ep pool) (.enter stage) (frame body)
      (.enter (stage.received ep body)) := by
  refine .internal ?_ (reads_rest hbody (frame body) [] rfl)
  rw [Session.act, h]

end Session

/-! ### Two ends -/

/-- Both ends at the beginning of their stages, nothing under way. -/
def between (stages : Side → Stage) : Pair UInt8 Session := ⟨fun k => .enter (stages k), fun _ => []⟩

/-- The two ends, each on its own node, take turns in any order. -/
def endsStep (ends : Ends crates) (pools : Side → ConnectionPool) :
    Pair UInt8 Session → Side → Option (Pair UInt8 Session) :=
  Duplex.step fun k => Session.act (ends k) (pools k)

section Rounds

variable {ends : Ends crates} (pools : Side → ConnectionPool)

/-- One round: both ends send a frame and read the other's. -/
theorem exec_round {stages : Side → Stage} {bodies : Side → Bytes}
    (hsend : ∀ k, (stages k).awaits (ends k) = .write (.ok (bodies k)))
    (hrecv : ∀ k, (stages k).sent.awaits (ends k) = .frame)
    (hlen : ∀ k, (bodies k).length < maxPacketSize) :
    ∃ ls, exec (endsStep ends pools) (between stages) ls =
      some (between fun k => (stages k).sent.received (ends k) (bodies k.other)) :=
  exchange (fun k => writes_frame (hsend k)) (fun k => reads_frame (hrecv k) (hlen k.other))

theorem exec_checks {stages : Side → Stage} {peerIds : Side → PeerID}
    (h : ∀ k, (stages k).awaits (ends k) = .contains (peerIds k)) :
    ∃ ls, exec (endsStep ends pools) (between stages) ls =
      some (between fun k => (stages k).checked ((pools k).contains (peerIds k))) :=
  exec_internal fun k => by rw [Session.act, h k]

end Rounds

/-- Two different nodes, neither in the other's pool, each expecting the other
or nobody in particular. -/
structure Strangers (ends : Ends crates) (pools : Side → ConnectionPool) : Prop
    extends Distinct ends where
  absent : ∀ k, (pools k).contains (ends k.other).identity.peerId = false

section Agreement

variable {ends : Ends crates} {pools : Side → ConnectionPool}

theorem exec_course_round (pools : Side → ConnectionPool) (course : Course ends) {i : ℕ} (hsend : IsSend i)
    (hrecv : IsRecv (i + 1)) (heq : readBefore (i + 1) = sentBefore i) :
    ∃ ls, exec (endsStep ends pools) (between fun k => courseStage ends k i) ls =
      some (between fun k => courseStage ends k (i + 2)) := by
  choose body hbody hwrite using fun k => course.writes k i hsend
  have hread : ∀ k, (courseStage ends k (i + 1)).received (ends k) (body k.other) =
      courseStage ends k (i + 2) := by
    intro k
    obtain ⟨body', hbody', hread⟩ := course.reads k (i + 1) hrecv
    rw [heq, hbody k.other] at hbody'
    cases hbody'
    exact hread
  obtain ⟨ls, hls⟩ := exec_round pools hwrite
    (fun k => by rw [courseStage_sent hsend]; exact courseStage_awaits_frame hrecv)
    (fun k => course.short k _ (List.mem_of_getElem? (hbody k)))
  simp only [courseStage_sent hsend, hread] at hls
  exact ⟨ls, hls⟩

/-- **One run that ends well.** -/
theorem exists_exec_agreed (hr : Reliable crates ends) (hs : Strangers ends pools) :
    ∃ ls, exec (endsStep ends pools) (between fun _ => .sendVersion) ls =
      some (between (agreed ends)) := by
  obtain ⟨course⟩ := exists_course hr hs.toDistinct
  obtain ⟨l₁, h₁⟩ := exec_course_round pools course (i := 0) (Or.inl rfl) (Or.inl rfl)
    rfl
  obtain ⟨l₂, h₂⟩ := exec_course_round pools course (i := 2) (Or.inr (Or.inl rfl))
    (Or.inr (Or.inl rfl)) rfl
  obtain ⟨l₃, h₃⟩ := exec_checks pools
    (fun k => courseStage_awaits_contains ends k)
  simp only [hs.absent, courseStage_checked] at h₃
  obtain ⟨l₄, h₄⟩ := exec_course_round pools course (i := 5)
    (Or.inr (Or.inr (Or.inl rfl))) (Or.inr (Or.inr (Or.inl rfl))) rfl
  obtain ⟨l₅, h₅⟩ := exec_course_round pools course (i := 7)
    (Or.inr (Or.inr (Or.inr rfl))) (Or.inr (Or.inr (Or.inr rfl))) rfl
  refine ⟨l₁ ++ (l₂ ++ (l₃ ++ (l₄ ++ l₅))), ?_⟩
  exact (exec_append_of h₁).trans ((exec_append_of h₂).trans ((exec_append_of h₃).trans
    ((exec_append_of h₄).trans h₅)))

/-! ### Every run -/

theorem act_agreed (k : Side) :
    Session.act (ends k) (pools k) ((between (agreed ends)).state k) = .halt := rfl

/-- **Honest handshakes agree.**  Whatever the order in which the two ends took
their steps so far, either both have returned or one can take a step; an end
that has returned holds the other's id and address and the key that both make of
their parts; and every run from here is finite and can be completed. -/
theorem honest_handshakes_agree (crates : Crates Bytes PrivateKey Seed) (ends : Ends crates)
    (pools : Side → ConnectionPool) (hr : Reliable crates ends) (hs : Strangers ends pools)
    (ls : List Side) (s : Pair UInt8 Session)
    (hrun : exec (endsStep ends pools) (between fun _ => .sendVersion) ls = some s) :
    ((∃ k, Session.act (ends k) (pools k) (s.state k) ≠ .halt) →
      ∃ k t, endsStep ends pools s k = some t) ∧
    (∀ k, Session.act (ends k) (pools k) (s.state k) = .halt →
      s.state k = .enter (.ok (ends k.other).identity.peerId (ends k.other).identity.addr
        (sharedAesKey ends))) ∧
    (sharedAesKey ends).length = 32 ∧
    (∃ bound, ∀ ls' t, exec (endsStep ends pools) s ls' = some t → ls'.length ≤ bound) ∧
    ∃ ls', exec (endsStep ends pools) s ls' = some (between (agreed ends)) := by
  have hc : Commutes (endsStep ends pools) := Duplex.commutes
  have hfinal : Final (endsStep ends pools) (between (agreed ends)) := final_of_halt act_agreed
  obtain ⟨ks, hk⟩ := exists_exec_agreed hr hs
  obtain ⟨rest, hrest, -⟩ := exec_of_final hc hk hfinal hrun
  refine ⟨?_, ?_, sharedAesKey_length ends, ⟨rest.length, ?_⟩, rest, hrest⟩
  · rintro ⟨k, hne⟩
    refine exists_step_of_ne_final hc hk hfinal hrun ?_
    rintro rfl
    exact hne (act_agreed k)
  · intro k hhalt
    rw [← state_eq_of_halt hhalt hrest]
    rfl
  · intro ls' t ht
    exact length_le_of_final hc hrest hfinal ht

end Agreement

/-! ### A pair of nodes -/

/-- The two ends of the examples: ids are real digests of small keys, and a body
is encrypted by marking it with the key it is for. -/
def pairCrates (packets : List Packet) : Crates Bytes RsaPublicKey Unit :=
  { listCodec packets with
    sha256 := realSha256
    newRsaPublicKey := fun n e => .ok ⟨e, n⟩
    encrypt := fun key _ body => .ok (hashedString key ++ body)
    decrypt := fun key body =>
      if (hashedString key).isPrefixOf body then .ok (body.drop (hashedString key).length)
      else .error ⟨"decryption error"⟩ }

def pairKey : Side → RsaPublicKey
  | .left => smallKeyA
  | .right => smallKeyB

def pairEnds (packets : List Packet) (k : Side) : Endpoint (pairCrates packets) where
  identity :=
    { rsaPrivateKey := pairKey k
      rsaPublicKey := pairKey k
      peerId := fromRsaPublicKey realSha256 (pairKey k)
      addr := match k with
        | .left => "local-0"
        | .right => "local-1"
      peerId_eq := rfl }
  expectedPeerId := none
  draws :=
    { nonce := List.replicate 16 (match k with | .left => 1 | .right => 2)
      aesKeyPart := List.replicate 16 (match k with | .left => 3 | .right => 4)
      seed := ()
      nonce_length := List.length_replicate
      aesKeyPart_length := List.length_replicate }

/-- Every packet the two ends send. -/
def pairPackets : List Packet :=
  [versionPacket, (pairEnds [] .left).rsaPacket, (pairEnds [] .right).rsaPacket,
    (pairEnds [] .left).aesPacket (pairEnds [] .right).draws.nonce,
    (pairEnds [] .right).aesPacket (pairEnds [] .left).draws.nonce,
    (pairEnds [] .left).ehloPacket, (pairEnds [] .right).ehloPacket]

theorem pair_hashedString_length (k : Side) : (hashedString (pairKey k)).length = 2 := by
  cases k
  · rw [pairKey, hashedString_smallKeyA]
    rfl
  · rw [pairKey, hashedString_smallKeyB]
    rfl

section PairPackets

variable {packets : List Packet}

theorem pair_encodes {p : Packet} (h : p ∈ packets) :
    ∃ body, (pairCrates packets).rawBytes p = .ok body ∧ body.length = 1 :=
  ⟨[UInt8.ofNat (packets.idxOf p)], if_pos h, rfl⟩

/-- The crates can be relied upon as soon as they know the packets of the two ends. -/
theorem pair_reliable (hpackets : ∀ p ∈ pairPackets, p ∈ packets) (hlen : packets.length ≤ 256) :
    Reliable (pairCrates packets) (pairEnds packets) where
  decodes p body h := listCodec_decodes hlen h
  encodes k p hp := by
    obtain ⟨body, hbody, hone⟩ := pair_encodes (hpackets p (by
      cases k <;> simp only [List.mem_cons, List.not_mem_nil, or_false] at hp <;>
        rcases hp with rfl | rfl | rfl <;>
        simp [pairPackets, Endpoint.rsaPacket, Endpoint.ehloPacket, pairEnds]))
    exact ⟨body, hbody, by rw [hone]; decide⟩
  accepts k := rfl
  encrypts k := by
    have hmem : (pairEnds packets k).aesPacket (pairEnds packets k.other).draws.nonce ∈
        pairPackets := by
      cases k <;> simp [pairPackets, Endpoint.aesPacket, pairEnds, Side.other]
    obtain ⟨body, hbody, hone⟩ := pair_encodes (hpackets _ hmem)
    refine ⟨body, hashedString (pairKey k.other) ++ body, hbody, rfl, ?_⟩
    rw [List.length_append, hone, pair_hashedString_length]
    decide
  decrypts k seed body cipher h := by
    cases h
    have hprefix : (hashedString (pairKey k)).isPrefixOf (hashedString (pairKey k) ++ body) :=
      List.isPrefixOf_iff_prefix.mpr (List.prefix_append _ _)
    exact (if_pos hprefix).trans (congrArg Except.ok List.drop_left)

theorem pair_distinct (packets : List Packet) : Distinct (pairEnds packets) where
  ne := smallKeys_peerId_ne
  expected _ := Or.inl rfl

end PairPackets

theorem pair_strangers : Strangers (pairEnds pairPackets)
    (fun k => ConnectionPool.new (pairEnds pairPackets k).identity.peerId) where
  toDistinct := pair_distinct pairPackets
  absent k := by simp [ConnectionPool.contains, ConnectionPool.new]

/-- The pair of nodes, before either has moved. -/
theorem honest_handshakes_agree_pair :
    ∃ ls', exec (endsStep (pairEnds pairPackets)
        fun k => ConnectionPool.new (pairEnds pairPackets k).identity.peerId)
      (between fun _ => .sendVersion) ls' = some (between (agreed (pairEnds pairPackets))) :=
  (honest_handshakes_agree (pairCrates pairPackets) (pairEnds pairPackets) _
    (pair_reliable (fun _ h => h) (by decide)) pair_strangers [] _ rfl).2.2.2.2

end Tewta
