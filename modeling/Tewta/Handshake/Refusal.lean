import Tewta.Handshake.Crossing

/-!
# What becomes of a handshake

Two calls of `handshake` on the two ends of one stream, byte by byte, whatever the
two nodes think of each other: they may be one and the same node, one may have
expected somebody else, or have the other in its pool by the time it asks.
`Handshaking` goes on where `handshake_raw` stops, and sends the Quit of an error.

`refusal` is what the checks of an end come to.  An end that refuses says so in
clear, where the other end waits for a packet that is encrypted, and so never
learns why.  But it does learn that the handshake is over: whatever the
interleaving, the calls of both ends come to their ends, and neither gets a
connection unless both do.  Here the pools stay as they are, and it follows from
one run (`exists_exec_ended`), as for two strangers.
-/

namespace Tewta

open ByteString PeerID Framing Transition Duplex

variable {PrivateKey Seed : Type} {crates : Crates Bytes PrivateKey Seed}

/-! ### A call of `handshake` -/

/-- A call of `handshake`: in `handshake_raw`, with bytes of its Quit left to
write, or returned with an error.  It also stops once `handshake_raw` has
returned well; what follows is the insertion into the pool. -/
inductive Handshaking
  | raw (session : Session)
  | quitting (e : HandshakeError) (left : Bytes)
  | failed (e : HandshakeError)
  deriving DecidableEq

/-- What `handshake` makes of the result of `handshake_raw`. -/
def Handshaking.returned (crates : Crates Bytes PrivateKey Seed) :
    Session → Action UInt8 Handshaking
  | .enter (.err e) =>
    match encode crates (.quit e.toQuit) with
    | .ok body => .internal (.quitting e (frame body))
    | .error e' => .internal (.failed e')
  | _ => .halt

/-- What a call does next. -/
def Handshaking.act (ep : Endpoint crates) (pool : ConnectionPool) :
    Handshaking → Action UInt8 Handshaking
  | .raw session =>
    match Session.act ep pool session with
    | .halt => returned crates session
    | action => action.map .raw
  | .quitting e [] => .internal (.failed e)
  | .quitting e (b :: left) => .write b (.quitting e left)
  | .failed _ => .halt

/-- The two calls take turns in any order. -/
def callsStep (ends : Ends crates) (pools : Side → ConnectionPool) :
    Pair UInt8 Handshaking → Side → Option (Pair UInt8 Handshaking) :=
  Duplex.step fun k => Handshaking.act (ends k) (pools k)

/-- Neither call has done anything yet. -/
def calling : Pair UInt8 Handshaking := ⟨fun _ => .raw (.enter .sendVersion), fun _ => []⟩

/-! ### What becomes of it -/

section Ending

variable (ends : Ends crates) (pools : Side → ConnectionPool) (known : Side → Bool) (k : Side)

/-- Does the pool of an end have the other? -/
def knows : Bool := (pools k).contains (ends k.other).identity.peerId

/-- What an end has against the other: the checks of `handshake_raw` once it has
the public key, in their order.  `known` is what the pools say. -/
def refusal : Option HandshakeError :=
  let them := (ends k.other).identity.peerId
  if (ends k).identity.peerId = them then some .samePeer
  else if (ends k).expectedPeerId ≠ none ∧ (ends k).expectedPeerId ≠ some them then
    some .identityMismatch
  else if known k then some .alreadyConnected
  else none

/-- How the call of an end ends: with its own refusal if it has one; if only the
other has, with the error of taking its Quit for an encrypted packet; and
otherwise with the id and the address of the other and the common key. -/
def EndsAs (call : Handshaking) : Prop :=
  match refusal ends known k, refusal ends known k.other with
  | some e, _ => call = .failed e
  | none, some _ => ∃ e, call = .failed (.rsaError e)
  | none, none => call = .raw (.enter (agreed ends k))

end Ending

/-- The Quits that the handshake sends serialize and fit a frame, and none in the
clear decrypts. -/
structure QuitsInClear (crates : Crates Bytes PrivateKey Seed) (ends : Ends crates) : Prop where
  encodes : ∀ e : HandshakeError, ∃ body, crates.rawBytes (.quit e.toQuit) = .ok body ∧
    body.length < maxPacketSize
  clear : ∀ k (e : HandshakeError) body, crates.rawBytes (.quit e.toQuit) = .ok body →
    ∃ err, crates.decrypt (ends k).identity.rsaPrivateKey body = .error err

section Call

variable {ep : Endpoint crates} {pool : ConnectionPool}

theorem continues_raw : Continues Handshaking.raw (Session.act ep pool)
    (Handshaking.act ep pool) := by
  intro session h
  rw [Handshaking.act]
  cases ha : Session.act ep pool session with
  | halt => exact absurd ha h
  | write b next => rfl
  | read next => rfl
  | internal next => rfl

theorem writes_quitting (e : HandshakeError) (left : Bytes) :
    Writes (Handshaking.act ep pool) (.quitting e left) left (.failed e) := by
  induction left with
  | nil => exact .internal rfl (.done _)
  | cons b left ih => exact .write rfl ih

theorem writes_quit {e : HandshakeError} {body : Bytes}
    (h : crates.rawBytes (.quit e.toQuit) = .ok body) :
    Writes (Handshaking.act ep pool) (.raw (.enter (.err e))) (frame body) (.failed e) := by
  refine .internal ?_ (writes_quitting e (frame body))
  simp only [Handshaking.act, Session.act, Stage.awaits, Handshaking.returned,
    encode_of_rawBytes h]

end Call

section Ends

variable {ends : Ends crates} {pools : Side → ConnectionPool} {known : Side → Bool} {k : Side}

theorem act_of_endsAs {call : Handshaking} (h : EndsAs ends known k call) :
    Handshaking.act (ends k) (pools k) call = .halt := by
  rw [EndsAs] at h
  cases hk : refusal ends known k with
  | some e =>
    simp only [hk] at h
    rw [h, Handshaking.act]
  | none =>
    cases ho : refusal ends known k.other with
    | some e =>
      simp only [hk, ho] at h
      obtain ⟨e, rfl⟩ := h
      rw [Handshaking.act]
    | none =>
      simp only [hk, ho] at h
      rw [h]
      rfl

theorem refusal_eq_none (h : refusal ends known k = none) :
    (ends k).identity.peerId ≠ (ends k.other).identity.peerId ∧
      ((ends k).expectedPeerId = none ∨
        (ends k).expectedPeerId = some (ends k.other).identity.peerId) ∧ known k = false := by
  simp only [refusal] at h
  split at h
  · cases h
  rename_i hne
  split at h
  · cases h
  rename_i hexp
  split at h
  · cases h
  rename_i hin
  refine ⟨hne, ?_, Bool.not_eq_true _ ▸ hin⟩
  by_cases hnone : (ends k).expectedPeerId = none
  · exact Or.inl hnone
  · exact Or.inr (not_not.mp fun hother => hexp ⟨hnone, hother⟩)

/-- Only the pool can say that the other end is connected. -/
theorem refusal_ne_alreadyConnected (ends : Ends crates) (h : known k = false) :
    refusal ends known k ≠ some .alreadyConnected := by
  rw [refusal, h]
  split
  · simp
  split
  · simp
  · simp

/-- Two ends with nothing against each other are strangers. -/
theorem strangers_of_refusal (h : ∀ k, refusal ends (knows ends pools) k = none) :
    Strangers ends pools where
  ne := (refusal_eq_none (h .left)).1
  expected k := (refusal_eq_none (h k)).2.1
  absent k := (refusal_eq_none (h k)).2.2

/-! ### Runs of the calls -/

theorem exec_raw {s t : Pair UInt8 Session} {ls : List Side}
    (h : exec (endsStep ends pools) s ls = some t) :
    exec (callsStep ends pools) (s.map .raw) ls = some (t.map .raw) :=
  exec_map (fun _ => continues_raw) h

theorem exec_writes {x y : Handshaking} {bs : Bytes}
    (h : Writes (Handshaking.act (ends k) (pools k)) x bs y) {s : Pair UInt8 Handshaking}
    (hs : s.state k = x) :
    ∃ ls t, exec (callsStep ends pools) s ls = some t ∧
      t.state = Function.update s.state k y ∧
      t.queue = Function.update s.queue k.other (s.queue k.other ++ bs) :=
  @exec_of_writes _ _ (fun l => Handshaking.act (ends l) (pools l)) k x y bs h s hs

theorem exec_reads {x y : Handshaking} {bs : Bytes}
    (h : Duplex.Reads (Handshaking.act (ends k) (pools k)) x bs y) {s : Pair UInt8 Handshaking}
    (hs : s.state k = x) (hqueue : s.queue k = bs) :
    ∃ ls t, exec (callsStep ends pools) s ls = some t ∧ t.state = Function.update s.state k y := by
  obtain ⟨ls, t, hls, hstate, -⟩ := @exec_of_reads _ _
    (fun l => Handshaking.act (ends l) (pools l)) k x y bs h s hs [] (by simpa using hqueue)
  exact ⟨ls, t, hls, hstate⟩

/-! ### Up to the checks -/

/-- The stage with the public key of the other end, before any check. -/
def identified (ends : Ends crates) (k : Side) : Stage :=
  checkIdentity (ends k) (ends k.other).identity.rsaPublicKey (ends k.other).draws.nonce

/-- The stage after the checks. -/
def verdict (ends : Ends crates) (known : Side → Bool) (k : Side) : Stage :=
  match refusal ends known k with
  | some e => .err e
  | none => .sendAes (ends k.other).identity.rsaPublicKey (ends k.other).draws.nonce

theorem received_rsa_eq (hr : Reliable crates ends) (k : Side) {body : Bytes}
    (h : crates.fromRawBytes body = .ok (ends k.other).rsaPacket) :
    Stage.recvRsa.received (ends k) body = identified ends k := by
  have hkey := hr.accepts k.other
  rw [Stage.received, decoded, h]
  simp only [Endpoint.rsaPacket, receivedRsa, ofLe_leMin, (ends k.other).draws.nonce_length, hkey,
    ne_eq, not_true_eq_false, if_false, identified]

/-- **The first two rounds** need nothing but that the crates work. -/
theorem exec_identified (hr : Reliable crates ends) (pools : Side → ConnectionPool) :
    ∃ ls, exec (endsStep ends pools) (between fun _ => .sendVersion) ls =
      some (between (identified ends)) := by
  choose version hversion hvlen using fun k => hr.encodes k versionPacket (by simp)
  choose rsa hrsa hrlen using fun k => hr.encodes k (ends k).rsaPacket (by simp)
  obtain ⟨l₁, h₁⟩ : ∃ ls, exec (endsStep ends pools) (between fun _ => .sendVersion) ls =
      some (between fun k => Stage.recvVersion.received (ends k) (version k.other)) :=
    exec_round pools (fun k => congrArg Awaits.write (encode_of_rawBytes (hversion k)))
      (fun _ => rfl) hvlen
  obtain ⟨l₂, h₂⟩ : ∃ ls, exec (endsStep ends pools) (between fun _ => .sendRsa) ls =
      some (between fun k => Stage.recvRsa.received (ends k) (rsa k.other)) :=
    exec_round pools (fun k => congrArg Awaits.write (encode_of_rawBytes (hrsa k)))
      (fun _ => rfl) hrlen
  simp only [fun k => received_version (hr.decodes _ _ (hversion (Side.other k)))] at h₁
  simp only [fun k => received_rsa_eq hr k (hr.decodes _ _ (hrsa k.other))] at h₂
  exact ⟨l₁ ++ l₂, (exec_append_of h₁).trans h₂⟩

theorem writes_asked (ends : Ends crates) (pools : Side → ConnectionPool) (k : Side) :
    Writes (Session.act (ends k) (pools k))
      (.enter (.checkPool (ends k.other).identity.rsaPublicKey (ends k.other).draws.nonce)) []
      (.enter (if knows ends pools k then .err .alreadyConnected
        else .sendAes (ends k.other).identity.rsaPublicKey (ends k.other).draws.nonce)) := by
  refine .internal ?_ (.done _)
  rw [knows, (ends k.other).identity.peerId_eq]
  rfl

theorem writes_verdict (ends : Ends crates) (pools : Side → ConnectionPool) (k : Side) :
    Writes (Session.act (ends k) (pools k)) (.enter (identified ends k)) []
      (.enter (verdict ends (knows ends pools) k)) := by
  have hasked := writes_asked ends pools k
  rw [identified, verdict, checkIdentity, refusal, ← (ends k.other).identity.peerId_eq]
  by_cases hsame : (ends k).identity.peerId = (ends k.other).identity.peerId
  · simp only [if_pos hsame]
    exact .done _
  simp only [if_neg hsame]
  cases hexp : (ends k).expectedPeerId with
  | none =>
    simp only [ne_eq, not_true_eq_false, false_and, if_false]
    split at hasked
    · rename_i hin
      simpa only [if_pos hin] using hasked
    · rename_i hout
      simpa only [if_neg hout] using hasked
  | some expected =>
    by_cases hne : expected = (ends k.other).identity.peerId
    · simp only [hne, ne_eq, not_true_eq_false, and_false, if_false]
      split at hasked
      · rename_i hin
        simpa only [if_pos hin] using hasked
      · rename_i hout
        simpa only [if_neg hout] using hasked
    · simp only [ne_eq, hne, not_false_eq_true, reduceCtorEq, Option.some.injEq, and_self, if_true]
      exact .done _

theorem writes_refusal {e : HandshakeError} (hk : refusal ends (knows ends pools) k = some e)
    {body : Bytes} (hbody : crates.rawBytes (.quit e.toQuit) = .ok body) :
    Writes (Handshaking.act (ends k) (pools k)) (.raw (.enter (identified ends k))) (frame body)
      (.failed e) := by
  have hchecks := continues_raw.writes (writes_verdict ends pools k)
  rw [verdict, hk] at hchecks
  exact hchecks.trans (writes_quit hbody)

theorem writes_acceptance (hr : Reliable crates ends)
    (hk : refusal ends (knows ends pools) k = none) :
    ∃ cipher, Writes (Handshaking.act (ends k) (pools k)) (.raw (.enter (identified ends k)))
      (frame cipher) (.raw (.enter (.recvAes (ends k.other).identity.rsaPublicKey))) := by
  obtain ⟨body, cipher, hbody, hcipher, -⟩ := hr.encrypts k
  have hchecks := writes_verdict ends pools k
  rw [verdict, hk] at hchecks
  exact ⟨cipher, continues_raw.writes
    (hchecks.trans (writes_frame (congrArg Awaits.write (encryptedFor_eq hbody hcipher))))⟩

/-- An end that waits for the other part of the key does not understand a Quit. -/
theorem reads_refusal (hq : QuitsInClear crates ends) (pools : Side → ConnectionPool) (k : Side)
    {e : HandshakeError} {body : Bytes}
    (hbody : crates.rawBytes (.quit e.toQuit) = .ok body) (hlen : body.length < maxPacketSize)
    (theirPublicKey : RsaPublicKey) :
    ∃ err, Duplex.Reads (Handshaking.act (ends k) (pools k))
      (.raw (.enter (.recvAes theirPublicKey))) (frame body)
      (.raw (.enter (.err (.rsaError err)))) := by
  obtain ⟨err, herr⟩ := hq.clear k e body hbody
  have hread : Duplex.Reads (Session.act (ends k) (pools k)) (.enter (.recvAes theirPublicKey))
      (frame body) (.enter ((Stage.recvAes theirPublicKey).received (ends k) body)) :=
    reads_frame rfl hlen
  rw [Stage.received, herr] at hread
  exact ⟨err, continues_raw.reads hread⟩

/-! ### One run -/

/-- What has nobody against it goes well. -/
theorem exec_accepted (hr : Reliable crates ends)
    (h : ∀ k, refusal ends (knows ends pools) k = none) :
    ∃ ls t, exec (callsStep ends pools) calling ls = some t ∧
      ∀ k, EndsAs ends (knows ends pools) k (t.state k) := by
  obtain ⟨ls, hls⟩ := exists_exec_agreed hr (strangers_of_refusal h)
  refine ⟨ls, _, exec_raw hls, fun k => ?_⟩
  simp only [EndsAs, h]
  rfl

/-- What one end refuses ends badly for both. -/
theorem exec_refused (hr : Reliable crates ends) (hq : QuitsInClear crates ends)
    {e : HandshakeError} (hk : refusal ends (knows ends pools) k = some e) :
    ∃ ls t, exec (callsStep ends pools) calling ls = some t ∧
      ∀ k, EndsAs ends (knows ends pools) k (t.state k) := by
  obtain ⟨l₀, h₀⟩ := exec_identified hr pools
  have h₀ := exec_raw h₀
  obtain ⟨body, hbody, hlen⟩ := hq.encodes e
  -- the end that refuses is done once it has written its Quit
  obtain ⟨l₁, t₁, h₁, hs₁, hq₁⟩ := exec_writes (writes_refusal hk hbody)
    (show ((between (identified ends)).map Handshaking.raw).state k = _ from rfl)
  have hstart : t₁.state k.other = .raw (.enter (identified ends k.other)) := by
    rw [hs₁, Function.update_of_ne (Side.other_ne k)]
    rfl
  have hsent : t₁.queue k.other = frame body := by
    rw [hq₁, Function.update_self]
    simp [Pair.map, between]
  cases ho : refusal ends (knows ends pools) k.other with
  | some e' =>
    obtain ⟨body', hbody', -⟩ := hq.encodes e'
    obtain ⟨l₂, t₂, h₂, hs₂, -⟩ := exec_writes (writes_refusal ho hbody') hstart
    refine ⟨l₀ ++ (l₁ ++ l₂), t₂, (exec_append_of h₀).trans ((exec_append_of h₁).trans h₂),
      Side.both k ?_ ?_⟩
    · rw [hs₂, Function.update_of_ne (Side.ne_other k), hs₁, Function.update_self]
      simp only [EndsAs, hk]
    · rw [hs₂, Function.update_self]
      simp only [EndsAs, ho]
  | none =>
    -- the other end sends its part of the key, and finds the Quit in its place
    obtain ⟨cipher, hcipher⟩ := writes_acceptance hr ho
    obtain ⟨l₂, t₂, h₂, hs₂, hq₂⟩ := exec_writes hcipher hstart
    have hsent' : t₂.queue k.other = frame body := by
      rw [hq₂, Function.update_of_ne (Side.ne_other k.other), hsent]
    obtain ⟨err, herr⟩ := reads_refusal hq pools k.other hbody hlen
      (ends k.other.other).identity.rsaPublicKey
    obtain ⟨l₃, t₃, h₃, hs₃⟩ := exec_reads herr (by rw [hs₂, Function.update_self]) hsent'
    obtain ⟨body', hbody', -⟩ := hq.encodes (.rsaError err)
    obtain ⟨l₄, t₄, h₄, hs₄, -⟩ := exec_writes (k := k.other) (writes_quit hbody')
      (by rw [hs₃, Function.update_self])
    refine ⟨l₀ ++ (l₁ ++ (l₂ ++ (l₃ ++ l₄))), t₄,
      (exec_append_of h₀).trans ((exec_append_of h₁).trans ((exec_append_of h₂).trans
        ((exec_append_of h₃).trans h₄))), Side.both k ?_ ?_⟩
    · rw [hs₄, Function.update_of_ne (Side.ne_other k), hs₃,
        Function.update_of_ne (Side.ne_other k), hs₂, Function.update_of_ne (Side.ne_other k), hs₁,
        Function.update_self]
      simp only [EndsAs, hk]
    · rw [hs₄, Function.update_self]
      simp only [EndsAs, ho, Side.other_other, hk]
      exact ⟨err, rfl⟩

/-- **One run** in which both calls come to their ends. -/
theorem exists_exec_ended (hr : Reliable crates ends) (hq : QuitsInClear crates ends)
    (pools : Side → ConnectionPool) :
    ∃ ls t, exec (callsStep ends pools) calling ls = some t ∧
      ∀ k, EndsAs ends (knows ends pools) k (t.state k) := by
  by_cases h : ∀ k, refusal ends (knows ends pools) k = none
  · exact exec_accepted hr h
  · obtain ⟨k, hk⟩ := not_forall.mp h
    obtain ⟨e, he⟩ := Option.ne_none_iff_exists'.mp hk
    exact exec_refused hr hq he

/-! ### Pools that stay as they are -/

section Fixed

variable (hr : Reliable crates ends) (hq : QuitsInClear crates ends) {ls : List Side}
  {s : Pair UInt8 Handshaking} (hrun : exec (callsStep ends pools) calling ls = some s)

include hr hq hrun

theorem endsAs_of_halt (hk : Handshaking.act (ends k) (pools k) (s.state k) = .halt) :
    EndsAs ends (knows ends pools) k (s.state k) := by
  obtain ⟨ks, u, hks, hends⟩ := exists_exec_ended hr hq pools
  have hfinal : Final (callsStep ends pools) u := final_of_halt fun k => act_of_endsAs (hends k)
  obtain ⟨rest, hrest, -⟩ := exec_of_final Duplex.commutes hks hfinal hrun
  rw [← state_eq_of_halt hk hrest]
  exact hends k

theorem exists_turn (hne : Handshaking.act (ends k) (pools k) (s.state k) ≠ .halt) :
    ∃ l t, callsStep ends pools s l = some t := by
  obtain ⟨ks, u, hks, hends⟩ := exists_exec_ended hr hq pools
  have hfinal : Final (callsStep ends pools) u := final_of_halt fun k => act_of_endsAs (hends k)
  refine exists_step_of_ne_final Duplex.commutes hks hfinal hrun ?_
  rintro rfl
  exact hne (act_of_endsAs (hends k))

theorem exists_exec_endsAs : ∃ ls' t, exec (callsStep ends pools) s ls' = some t ∧
    ∀ k, EndsAs ends (knows ends pools) k (t.state k) := by
  obtain ⟨ks, u, hks, hends⟩ := exists_exec_ended hr hq pools
  have hfinal : Final (callsStep ends pools) u := final_of_halt fun k => act_of_endsAs (hends k)
  obtain ⟨rest, hrest, -⟩ := exec_of_final Duplex.commutes hks hfinal hrun
  exact ⟨rest, u, hrest, hends⟩

end Fixed

theorem exists_length_le (hr : Reliable crates ends) (hq : QuitsInClear crates ends)
    (pools : Side → ConnectionPool) :
    ∃ bound, ∀ ls s, exec (callsStep ends pools) calling ls = some s → ls.length ≤ bound := by
  obtain ⟨ks, u, hks, hends⟩ := exists_exec_ended hr hq pools
  have hfinal : Final (callsStep ends pools) u := final_of_halt fun k => act_of_endsAs (hends k)
  exact ⟨ks.length, fun ls s hrun => length_le_of_final Duplex.commutes hks hfinal hrun⟩

end Ends

end Tewta
