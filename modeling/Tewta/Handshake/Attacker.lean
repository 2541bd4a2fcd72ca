import Mathlib.Logic.Relation
import Tewta.Handshake.Machine

/-!
# Handshakes over a network the attacker owns

Any number of honest calls of `handshake_raw`, on any nodes, with the attacker
in the place of the streams: it sees every frame that is written, and what a call
reads is any frame it can make.  Frames are terms here, so that RSA and the
encoding of packets are ideal: a cipher text is opened with the private key or
not at all, and bytes that an honest call has drawn are known to the attacker
only if it has read them somewhere.

`accepted_aes_is_fresh` says what an honest call knows when it returns `Ok`: the
id it returns is that of the key it was shown, and somebody has answered the
nonce of this very call after it was sent.  That somebody need not hold the
private key of that id.  The nonce is sent in the clear and its echo is
encrypted to the call that checks it, so anybody can produce it:
`exists_impersonation` makes any honest call return the id of any key, and
`no_authentication` is a run in which the node with that key does nothing.
-/

namespace Tewta

open ByteString PeerID

/-! ### Terms -/

/-- The body of a frame: the encoding of a packet, a cipher text, or bytes that
are neither. -/
inductive Term
  | plain (p : Packet)
  | cipher (key : RsaPublicKey) (seed : ℕ) (t : Term)
  | junk (bytes : Bytes)
  deriving DecidableEq

/-- The bytes of a packet that an honest call may have drawn. -/
def Packet.drawn : Packet → List Bytes
  | .initRsa p => [p.nonce]
  | .initAes p => [p.aesKeyPart, p.nonce]
  | _ => []

/-- The drawn bytes of a body, encrypted or not. -/
def Term.drawn : Term → List Bytes
  | .plain p => p.drawn
  | .cipher _ _ t => t.drawn
  | .junk _ => []

/-- Ideal crates.  A private key is named by its public key; which keys
`RsaPublicKey::new` accepts stays open. -/
def idealCrates (sha256 : Bytes → Bytes32) (accepts : RsaPublicKey → Bool) :
    Crates Term RsaPublicKey ℕ where
  rawBytes p := .ok (.plain p)
  fromRawBytes t :=
    match t with
    | .plain p => .ok p
    | _ => .error ⟨"not the encoding of a packet"⟩
  sha256 := sha256
  newRsaPublicKey n e := if accepts ⟨e, n⟩ then .ok ⟨e, n⟩ else .error ⟨"invalid public key"⟩
  encrypt key seed t := .ok (.cipher key seed t)
  decrypt key t :=
    match t with
    | .cipher key' _ t => if key' = key then .ok t else .error ⟨"decryption error"⟩
    | _ => .error ⟨"decryption error"⟩

variable {sha256 : Bytes → Bytes32} {accepts : RsaPublicKey → Bool}

/-! ### Runs -/

/-- One honest call of `handshake_raw`. -/
structure Call (sha256 : Bytes → Bytes32) (accepts : RsaPublicKey → Bool) where
  endpoint : Endpoint (idealCrates sha256 accepts)
  stage : Stage

/-- What is seen of the call with a number. -/
inductive Event
  | sent (i : ℕ) (body : Term)
  | delivered (i : ℕ) (body : Term)
  deriving DecidableEq

def Event.body : Event → Term
  | .sent _ body => body
  | .delivered _ body => body

/-- The honest calls so far, and the events so far with the last one first. -/
structure Net (sha256 : Bytes → Bytes32) (accepts : RsaPublicKey → Bool) where
  calls : List (Call sha256 accepts)
  events : List Event

def Net.endpoint (net : Net sha256 accepts) (i : ℕ) : Option (Endpoint (idealCrates sha256 accepts)) :=
  net.calls[i]?.map Call.endpoint

section Attacker

variable (owned : RsaPublicKey → Prop)

/-- The attacker reads a packet in a body it sees. -/
inductive Opens : Term → Packet → Prop
  | plain (p : Packet) : Opens (.plain p) p
  | cipher {key : RsaPublicKey} {seed : ℕ} {t : Term} {p : Packet} (hk : owned key)
      (h : Opens t p) : Opens (.cipher key seed t) p

/-- Bytes the attacker has read. -/
def Learnt (events : List Event) (b : Bytes) : Prop :=
  ∃ i body p, Event.sent i body ∈ events ∧ Opens owned body p ∧ b ∈ p.drawn

/-- Bytes an honest call has drawn. -/
def Net.Drawn (net : Net sha256 accepts) (b : Bytes) : Prop :=
  ∃ i ep, net.endpoint i = some ep ∧ (b = ep.draws.nonce ∨ b = ep.draws.aesKeyPart)

/-- **What the attacker can make**: it replays and opens what it has seen, and
builds packets out of bytes that are no secrets or that it has read. -/
inductive Makes (net : Net sha256 accepts) : Term → Prop
  | seen {i : ℕ} {body : Term} (h : Event.sent i body ∈ net.events) : Makes net body
  | opened {key : RsaPublicKey} {seed : ℕ} {t : Term} (h : Makes net (.cipher key seed t))
      (hk : owned key) : Makes net t
  | plain (p : Packet) (h : ∀ b ∈ p.drawn, net.Drawn b → Learnt owned net.events b) :
      Makes net (.plain p)
  | cipher (key : RsaPublicKey) (seed : ℕ) {t : Term} (h : Makes net t) :
      Makes net (.cipher key seed t)
  | junk (bytes : Bytes) : Makes net (.junk bytes)

/-- The draws of a new call have not been seen and are no others' draws. -/
structure Net.Fresh (net : Net sha256 accepts) (draws : Draws ℕ) : Prop where
  nonce_ne : draws.nonce ≠ draws.aesKeyPart
  nonce_not_drawn : ¬ net.Drawn draws.nonce
  part_not_drawn : ¬ net.Drawn draws.aesKeyPart
  nonce_unseen : ∀ e ∈ net.events, draws.nonce ∉ e.body.drawn
  part_unseen : ∀ e ∈ net.events, draws.aesKeyPart ∉ e.body.drawn

/-- One step of the network. -/
inductive NetStep : Net sha256 accepts → Net sha256 accepts → Prop
  /-- an honest node calls `handshake_raw` -/
  | start {net : Net sha256 accepts} (ep : Endpoint (idealCrates sha256 accepts))
      (hpair : ep.identity.rsaPrivateKey = ep.identity.rsaPublicKey)
      (hhonest : ¬ owned ep.identity.rsaPublicKey) (hfresh : net.Fresh ep.draws) :
      NetStep net ⟨net.calls ++ [⟨ep, .sendVersion⟩], net.events⟩
  /-- a call writes a frame -/
  | write {net : Net sha256 accepts} {i : ℕ} {call : Call sha256 accepts} {body : Term}
      (hi : net.calls[i]? = some call)
      (h : call.stage.awaits call.endpoint = .write (.ok body)) :
      NetStep net ⟨net.calls.set i ⟨call.endpoint, call.stage.sent⟩, .sent i body :: net.events⟩
  /-- a call reads a frame of the attacker's choice -/
  | deliver {net : Net sha256 accepts} {i : ℕ} {call : Call sha256 accepts} {body : Term}
      (hi : net.calls[i]? = some call) (h : call.stage.awaits call.endpoint = .frame)
      (hm : Makes owned net body) :
      NetStep net ⟨net.calls.set i ⟨call.endpoint, call.stage.received call.endpoint body⟩,
        .delivered i body :: net.events⟩
  /-- the pool of the node answers -/
  | check {net : Net sha256 accepts} {i : ℕ} {call : Call sha256 accepts} {peerId : PeerID}
      (hi : net.calls[i]? = some call) (h : call.stage.awaits call.endpoint = .contains peerId)
      (answer : Bool) :
      NetStep net ⟨net.calls.set i ⟨call.endpoint, call.stage.checked answer⟩, net.events⟩
  /-- reading or writing fails, or a frame is too large -/
  | fail {net : Net sha256 accepts} {i : ℕ} {call : Call sha256 accepts}
      (hi : net.calls[i]? = some call) (e : HandshakeError) :
      NetStep net ⟨net.calls.set i ⟨call.endpoint, call.stage.failed e⟩, net.events⟩

/-- The runs of the network, from no calls and no events. -/
def Net.Reachable (net : Net sha256 accepts) : Prop :=
  Relation.ReflTransGen (NetStep owned) ⟨[], []⟩ net

end Attacker

/-! ### What the attacker makes has been seen -/

section Invariant

variable {owned : RsaPublicKey → Prop}

theorem Opens.drawn_subset {t : Term} {p : Packet} (h : Opens owned t p) {b : Bytes}
    (hb : b ∈ p.drawn) : b ∈ t.drawn := by
  induction h with
  | plain p => exact hb
  | cipher _ _ ih => exact ih hb

/-- Drawn bytes in a body the attacker makes are in a body that was sent. -/
theorem Makes.exists_sent {net : Net sha256 accepts} {t : Term} (h : Makes owned net t) {b : Bytes}
    (hb : b ∈ t.drawn) (hd : net.Drawn b) :
    ∃ i body, Event.sent i body ∈ net.events ∧ b ∈ body.drawn := by
  induction h with
  | seen h => exact ⟨_, _, h, hb⟩
  | opened _ _ ih => exact ih hb
  | plain p h =>
    obtain ⟨i, body, q, hs, ho, hq⟩ := h b hb hd
    exact ⟨i, body, hs, ho.drawn_subset hq⟩
  | cipher _ _ _ ih => exact ih hb
  | junk => cases hb

/-! ### What an event rests on -/

/-- `P e earlier` holds of every event and the events before it. -/
def Throughout (P : Event → List Event → Prop) : List Event → Prop
  | [] => True
  | e :: earlier => P e earlier ∧ Throughout P earlier

theorem Throughout.of_append {P : Event → List Event → Prop} {later : List Event} {e : Event}
    {earlier : List Event} (h : Throughout P (later ++ e :: earlier)) : P e earlier := by
  induction later with
  | nil => exact h.1
  | cons _ later ih => exact ih h.2

theorem Throughout.before {P : Event → List Event → Prop} {later : List Event} {e : Event}
    {earlier : List Event} (h : Throughout P (later ++ e :: earlier)) : Throughout P earlier := by
  induction later with
  | nil => exact h.2
  | cons _ later ih => exact ih h.2

theorem Throughout.of_mem {P : Event → List Event → Prop} {events : List Event} {e : Event}
    (h : Throughout P events) (he : e ∈ events) : ∃ earlier, e :: earlier <:+ events ∧ P e earlier := by
  obtain ⟨later, earlier, rfl⟩ := List.append_of_mem he
  exact ⟨earlier, List.suffix_append _ _, h.of_append⟩

theorem Throughout.mono {P Q : Event → List Event → Prop} {events : List Event}
    (h : Throughout P events) (hpq : ∀ e ∈ events, ∀ earlier, P e earlier → Q e earlier) :
    Throughout Q events := by
  induction events with
  | nil => trivial
  | cons e earlier ih =>
    exact ⟨hpq e List.mem_cons_self earlier h.1,
      ih h.2 fun e' he' => hpq e' (List.mem_cons_of_mem e he')⟩

/-- The event of a call sending its public key and its nonce. -/
def rsaSent (i : ℕ) (ep : Endpoint (idealCrates sha256 accepts)) : Event :=
  .sent i (.plain ep.rsaPacket)

/-- The other side has shown a key that is not ours, and a nonce. -/
def Presented (i : ℕ) (ep : Endpoint (idealCrates sha256 accepts)) (key : RsaPublicKey)
    (nonce : Bytes) (events : List Event) : Prop :=
  fromRsaPublicKey sha256 key ≠ ep.identity.peerId ∧
    ∃ r, Event.delivered i (.plain (.initRsa r)) ∈ events ∧ r.nonce = nonce ∧
      key = ⟨ofLe r.rsaPublicKeyExponent, ofLe r.rsaPublicKeyModulus⟩

/-- Our key part went out, encrypted for a key that is not ours. -/
def Answered (i : ℕ) (ep : Endpoint (idealCrates sha256 accepts)) (key : RsaPublicKey)
    (events : List Event) : Prop :=
  fromRsaPublicKey sha256 key ≠ ep.identity.peerId ∧
    ∃ nonce, Event.sent i (.cipher key ep.draws.seed (.plain (ep.aesPacket nonce))) ∈ events

/-- A key part came in with our nonce, after all that. -/
def Accepted (i : ℕ) (ep : Endpoint (idealCrates sha256 accepts)) (peerId : PeerID)
    (events : List Event) : Prop :=
  ∃ key seed part later earlier, fromRsaPublicKey sha256 key = peerId ∧
    events = later ++ .delivered i (.cipher ep.identity.rsaPrivateKey seed
      (.plain (.initAes ⟨part, ep.draws.nonce⟩))) :: earlier ∧
    rsaSent i ep ∈ earlier ∧ Answered i ep key earlier

/-- What a call has been through, by the stage it is at. -/
def Happened (i : ℕ) (ep : Endpoint (idealCrates sha256 accepts)) (events : List Event) :
    Stage → Prop
  | .recvRsa => rsaSent i ep ∈ events
  | .checkPool key nonce => rsaSent i ep ∈ events ∧ Presented i ep key nonce events
  | .sendAes key nonce => rsaSent i ep ∈ events ∧ Presented i ep key nonce events
  | .recvAes key => rsaSent i ep ∈ events ∧ Answered i ep key events
  | .sendEhlo peerId _ => Accepted i ep peerId events
  | .recvEhlo peerId _ => Accepted i ep peerId events
  | .ok peerId _ _ => Accepted i ep peerId events
  | _ => True

/-- An honest call echoes a nonce only to the key that came with it. -/
def EchoesRequest (endpoint : ℕ → Option (Endpoint (idealCrates sha256 accepts))) (e : Event)
    (earlier : List Event) : Prop :=
  ∀ j key seed q, e = .sent j (.cipher key seed (.plain (.initAes q))) →
    ∃ ep, endpoint j = some ep ∧ q.aesKeyPart = ep.draws.aesKeyPart ∧
      Presented j ep key q.nonce earlier

/-- A nonce is in no event before the one that sends it. -/
def NonceAfter (endpoint : ℕ → Option (Endpoint (idealCrates sha256 accepts))) (e : Event)
    (earlier : List Event) : Prop :=
  ∀ i ep, endpoint i = some ep → ep.draws.nonce ∈ e.body.drawn → rsaSent i ep ∈ e :: earlier

structure NetInv (net : Net sha256 accepts) : Prop where
  happened : ∀ i call, net.calls[i]? = some call → Happened i call.endpoint net.events call.stage
  pair : ∀ i ep, net.endpoint i = some ep → ep.identity.rsaPrivateKey = ep.identity.rsaPublicKey
  echoes : Throughout (EchoesRequest net.endpoint) net.events
  after : Throughout (NonceAfter net.endpoint) net.events
  nonce_ne_part : ∀ i j ep ep', net.endpoint i = some ep → net.endpoint j = some ep' →
    ep.draws.nonce ≠ ep'.draws.aesKeyPart
  nonce_inj : ∀ i j ep ep', net.endpoint i = some ep → net.endpoint j = some ep' →
    ep.draws.nonce = ep'.draws.nonce → i = j

/-! ### More events -/

section Mono

variable {i : ℕ} {ep : Endpoint (idealCrates sha256 accepts)} {events : List Event}

theorem Presented.cons {key : RsaPublicKey} {nonce : Bytes} (h : Presented i ep key nonce events)
    (e : Event) : Presented i ep key nonce (e :: events) := by
  obtain ⟨hne, r, hr, hn⟩ := h
  exact ⟨hne, r, List.mem_cons_of_mem e hr, hn⟩

theorem Answered.cons {key : RsaPublicKey} (h : Answered i ep key events) (e : Event) :
    Answered i ep key (e :: events) := by
  obtain ⟨hne, nonce, hn⟩ := h
  exact ⟨hne, nonce, List.mem_cons_of_mem e hn⟩

theorem Accepted.cons {peerId : PeerID} (h : Accepted i ep peerId events) (e : Event) :
    Accepted i ep peerId (e :: events) := by
  obtain ⟨key, seed, part, later, earlier, hkey, rfl, hrest⟩ := h
  exact ⟨key, seed, part, e :: later, earlier, hkey, rfl, hrest⟩

theorem Happened.cons {stage : Stage} (h : Happened i ep events stage) (e : Event) :
    Happened i ep (e :: events) stage := by
  cases stage with
  | recvRsa => exact List.mem_cons_of_mem e h
  | checkPool key nonce => exact ⟨List.mem_cons_of_mem e h.1, h.2.cons e⟩
  | sendAes key nonce => exact ⟨List.mem_cons_of_mem e h.1, h.2.cons e⟩
  | recvAes key => exact ⟨List.mem_cons_of_mem e h.1, h.2.cons e⟩
  | sendEhlo peerId aesKey => exact Accepted.cons h e
  | recvEhlo peerId aesKey => exact Accepted.cons h e
  | ok peerId addr aesKey => exact Accepted.cons h e
  | sendVersion => trivial
  | recvVersion => trivial
  | sendRsa => trivial
  | err e' => trivial

/-! ### What a step adds -/

theorem body_of_write {stage : Stage} {body : Term}
    (h : stage.awaits ep = .write (.ok body)) :
    (stage = .sendVersion ∧ body = .plain versionPacket) ∨
    (stage = .sendRsa ∧ body = .plain ep.rsaPacket) ∨
    (∃ key nonce, stage = .sendAes key nonce ∧
      body = .cipher key ep.draws.seed (.plain (ep.aesPacket nonce))) ∨
    (∃ peerId aesKey, stage = .sendEhlo peerId aesKey ∧ body = .plain ep.ehloPacket) := by
  cases stage with
  | sendVersion => cases h; exact Or.inl ⟨rfl, rfl⟩
  | sendRsa => cases h; exact Or.inr (Or.inl ⟨rfl, rfl⟩)
  | sendAes key nonce => cases h; exact Or.inr (Or.inr (Or.inl ⟨key, nonce, rfl, rfl⟩))
  | sendEhlo peerId aesKey => cases h; exact Or.inr (Or.inr (Or.inr ⟨peerId, aesKey, rfl, rfl⟩))
  | recvVersion => cases h
  | recvRsa => cases h
  | checkPool key nonce => cases h
  | recvAes key => cases h
  | recvEhlo peerId aesKey => cases h
  | ok peerId addr aesKey => cases h
  | err e => cases h

theorem Happened.write {stage : Stage} {body : Term} (h : Happened i ep events stage)
    (hw : stage.awaits ep = .write (.ok body)) :
    Happened i ep (.sent i body :: events) stage.sent := by
  rcases body_of_write hw with ⟨rfl, rfl⟩ | ⟨rfl, rfl⟩ | ⟨key, nonce, rfl, rfl⟩ |
    ⟨peerId, aesKey, rfl, rfl⟩
  · trivial
  · exact List.mem_cons_self
  · exact ⟨List.mem_cons_of_mem _ h.1, h.2.1, nonce, List.mem_cons_self⟩
  · exact Accepted.cons h _

theorem Happened.check {stage : Stage} (h : Happened i ep events stage) (answer : Bool) :
    Happened i ep events (stage.checked answer) := by
  cases stage with
  | checkPool key nonce =>
    cases answer with
    | true => trivial
    | false => exact h
  | _ => exact h

theorem Happened.fail {stage : Stage} (h : Happened i ep events stage) (e : HandshakeError) :
    Happened i ep events (stage.failed e) := by
  cases stage with
  | ok peerId addr aesKey => exact h
  | _ => trivial

theorem decoded_eq (next : Packet → Stage) (body : Term) :
    (∃ p, body = .plain p ∧ decoded (idealCrates sha256 accepts) next body = next p) ∨
      ∃ e, decoded (idealCrates sha256 accepts) next body = .err e := by
  cases body with
  | plain p => exact Or.inl ⟨p, rfl, rfl⟩
  | cipher key seed t => exact Or.inr ⟨_, rfl⟩
  | junk bytes => exact Or.inr ⟨_, rfl⟩

/-- What a frame leads to, by the stage at which it arrives. -/
inductive Receives (ep : Endpoint (idealCrates sha256 accepts)) : Term → Stage → Stage → Prop
  | version {body : Term} : Receives ep body .recvVersion .sendRsa
  | rsa {q : InitRsaPacket} {key : RsaPublicKey}
      (hkey : key = ⟨ofLe q.rsaPublicKeyExponent, ofLe q.rsaPublicKeyModulus⟩)
      (hne : fromRsaPublicKey sha256 key ≠ ep.identity.peerId) :
      Receives ep (.plain (.initRsa q)) .recvRsa (.checkPool key q.nonce)
  | aes {key : RsaPublicKey} {seed : ℕ} {q : InitAesPacket} {aesKey : Bytes}
      (hlen : q.aesKeyPart.length = 16) (hnonce : q.nonce = ep.draws.nonce)
      (haes : concatAesKeyParts ep.identity.peerId (fromRsaPublicKey sha256 key)
        ep.draws.aesKeyPart q.aesKeyPart = .ok aesKey) :
      Receives ep (.cipher ep.identity.rsaPrivateKey seed (.plain (.initAes q))) (.recvAes key)
        (.sendEhlo (fromRsaPublicKey sha256 key) aesKey)
  | ehlo {body : Term} {peerId : PeerID} {aesKey : Bytes} {addr : String} :
      Receives ep body (.recvEhlo peerId aesKey) (.ok peerId addr aesKey)
  | err {body : Term} {stage : Stage} {e : HandshakeError} : Receives ep body stage (.err e)
  | other {body : Term} {stage : Stage} : Receives ep body stage stage

theorem receives (ep : Endpoint (idealCrates sha256 accepts)) (stage : Stage) (body : Term) :
    Receives ep body stage (stage.received ep body) := by
  cases stage with
  | recvVersion =>
    rw [Stage.received]
    rcases decoded_eq receivedVersion body with ⟨p, -, hp⟩ | ⟨e, he⟩
    · rw [hp]
      rcases receivedVersion_cases p with hp | ⟨e, he⟩
      · rw [hp]; exact .version
      · rw [he]; exact .err
    · rw [he]; exact .err
  | recvRsa =>
    rw [Stage.received]
    rcases decoded_eq (receivedRsa ep) body with ⟨p, rfl, hp⟩ | ⟨e, he⟩
    · rw [hp]
      rcases receivedRsa_cases ep p with ⟨q, key, rfl, -, hkey, hne, -, hstage⟩ | ⟨e, he⟩
      · rw [hstage]
        refine .rsa ?_ hne
        simp only [idealCrates] at hkey
        split at hkey
        · exact (Except.ok.inj hkey).symm
        · cases hkey
      · rw [he]; exact .err
    · rw [he]; exact .err
  | recvAes key =>
    rw [Stage.received]
    cases body with
    | cipher key' seed t =>
      by_cases hkey : key' = ep.identity.rsaPrivateKey
      · subst hkey
        simp only [idealCrates, if_true]
        rcases decoded_eq (receivedAes ep key) t with ⟨p, rfl, hp⟩ | ⟨e, he⟩
        · rcases receivedAes_cases ep key p with
            ⟨q, aesKey, rfl, hlen, hnonce, haes, hstage⟩ | ⟨e, he⟩
          · exact hp.trans hstage ▸ .aes hlen hnonce haes
          · exact hp.trans he ▸ .err
        · exact he ▸ .err
      · simp only [idealCrates, if_neg hkey]
        exact .err
    | plain p => exact .err
    | junk bytes => exact .err
  | recvEhlo peerId aesKey =>
    rw [Stage.received]
    rcases decoded_eq (receivedEhlo peerId aesKey) body with ⟨p, -, hp⟩ | ⟨e, he⟩
    · rw [hp]
      rcases receivedEhlo_cases peerId aesKey p with ⟨q, -, hstage⟩ | ⟨e, he⟩
      · rw [hstage]; exact .ehlo
      · rw [he]; exact .err
    · rw [he]; exact .err
  | _ => exact .other

theorem Happened.read {stage : Stage} {body : Term} (h : Happened i ep events stage) :
    Happened i ep (.delivered i body :: events) (stage.received ep body) := by
  have hreceives := receives ep stage body
  generalize stage.received ep body = next at hreceives
  cases hreceives with
  | version => trivial
  | rsa hkey hne => exact ⟨List.mem_cons_of_mem _ h, hne, _, List.mem_cons_self, rfl, hkey⟩
  | @aes key seed q aesKey _ hnonce _ =>
    refine ⟨key, seed, q.aesKeyPart, [], events, rfl, ?_, h⟩
    rw [← hnonce]
    rfl
  | ehlo => exact Accepted.cons h _
  | err => trivial
  | other => exact h.cons _

end Mono

/-! ### The invariant -/

theorem endpoint_eq_of_getElem {net : Net sha256 accepts} {i : ℕ} {call : Call sha256 accepts}
    (hi : net.calls[i]? = some call) : net.endpoint i = some call.endpoint := by
  rw [Net.endpoint, hi, Option.map_some]

theorem endpoint_set {net : Net sha256 accepts} {i : ℕ} {call : Call sha256 accepts}
    (hi : net.calls[i]? = some call) (stage : Stage) (events : List Event) :
    Net.endpoint ⟨net.calls.set i ⟨call.endpoint, stage⟩, events⟩ = net.endpoint := by
  funext j
  rw [Net.endpoint, Net.endpoint, List.getElem?_set]
  by_cases hij : i = j
  · subst hij
    have hlt := (List.getElem?_eq_some_iff.mp hi).1
    rw [if_pos rfl, if_pos hlt, hi, Option.map_some, Option.map_some]
  · rw [if_neg hij]

theorem getElem?_set_cases {calls : List (Call sha256 accepts)} {i j : ℕ}
    {new call : Call sha256 accepts} (h : (calls.set i new)[j]? = some call) :
    (j = i ∧ call = new) ∨ calls[j]? = some call := by
  rw [List.getElem?_set] at h
  split at h
  · rename_i hij
    split at h
    · exact Or.inl ⟨hij.symm, (Option.some.inj h).symm⟩
    · cases h
  · exact Or.inr h

theorem NetInv.move {net : Net sha256 accepts} (inv : NetInv net) {i : ℕ}
    {call : Call sha256 accepts} (hi : net.calls[i]? = some call) {stage : Stage}
    (h : Happened i call.endpoint net.events stage) :
    NetInv ⟨net.calls.set i ⟨call.endpoint, stage⟩, net.events⟩ := by
  have hend := endpoint_set hi stage net.events
  refine ⟨fun j c hj => ?_, ?_, ?_, ?_, ?_, ?_⟩
  · rcases getElem?_set_cases hj with ⟨rfl, rfl⟩ | hj
    · exact h
    · exact inv.happened j c hj
  all_goals rw [hend]
  · exact inv.pair
  · exact inv.echoes
  · exact inv.after
  · exact inv.nonce_ne_part
  · exact inv.nonce_inj

theorem NetInv.event {net : Net sha256 accepts} (inv : NetInv net) {i : ℕ}
    {call : Call sha256 accepts} (hi : net.calls[i]? = some call) {stage : Stage} {e : Event}
    (h : Happened i call.endpoint (e :: net.events) stage)
    (hechoes : EchoesRequest net.endpoint e net.events)
    (hafter : NonceAfter net.endpoint e net.events) :
    NetInv ⟨net.calls.set i ⟨call.endpoint, stage⟩, e :: net.events⟩ := by
  have hend := endpoint_set hi stage (e :: net.events)
  refine ⟨fun j c hj => ?_, ?_, ?_, ?_, ?_, ?_⟩
  · rcases getElem?_set_cases hj with ⟨rfl, rfl⟩ | hj
    · exact h
    · exact (inv.happened j c hj).cons e
  all_goals rw [hend]
  · exact inv.pair
  · exact ⟨hechoes, inv.echoes⟩
  · exact ⟨hafter, inv.after⟩
  · exact inv.nonce_ne_part
  · exact inv.nonce_inj

/-- Where a nonce has been seen, it has been sent by its call. -/
theorem NetInv.rsaSent_mem {net : Net sha256 accepts} (inv : NetInv net) {e : Event}
    (he : e ∈ net.events) {i : ℕ} {ep : Endpoint (idealCrates sha256 accepts)}
    (hi : net.endpoint i = some ep) (hb : ep.draws.nonce ∈ e.body.drawn) :
    rsaSent i ep ∈ net.events := by
  obtain ⟨earlier, hsuf, hafter⟩ := inv.after.of_mem he
  exact hsuf.subset (hafter i ep hi hb)

theorem NetInv.write {net : Net sha256 accepts} (inv : NetInv net) {i : ℕ}
    {call : Call sha256 accepts} {body : Term} (hi : net.calls[i]? = some call)
    (hw : call.stage.awaits call.endpoint = .write (.ok body)) :
    NetInv ⟨net.calls.set i ⟨call.endpoint, call.stage.sent⟩, .sent i body :: net.events⟩ := by
  have hhap := inv.happened i call hi
  have hend := endpoint_eq_of_getElem hi
  refine inv.event hi (hhap.write hw) ?_ ?_
  · intro j key seed q he
    cases he
    rcases body_of_write hw with ⟨-, hbody⟩ | ⟨-, hbody⟩ | ⟨key', nonce, hstage, hbody⟩ |
      ⟨-, -, -, hbody⟩
    · cases hbody
    · cases hbody
    · cases hbody
      rw [hstage] at hhap
      exact ⟨call.endpoint, hend, rfl, hhap.2⟩
    · cases hbody
  · intro j ep hj hb
    rcases body_of_write hw with ⟨-, rfl⟩ | ⟨-, rfl⟩ | ⟨key, nonce, hstage, rfl⟩ | ⟨-, -, -, rfl⟩
    · cases hb
    · -- the call sends a nonce in the clear, its own
      have hnonce := List.mem_singleton.mp hb
      obtain rfl := inv.nonce_inj j i ep call.endpoint hj hend hnonce
      rw [hj] at hend
      cases hend
      exact List.mem_cons_self
    · -- it echoes a nonce it has read
      rcases List.mem_cons.mp hb with hpart | hb
      · exact absurd hpart (inv.nonce_ne_part j i ep call.endpoint hj hend)
      · rw [hstage] at hhap
        obtain ⟨-, -, r, hr, hnonce, -⟩ := hhap
        refine List.mem_cons_of_mem _ (inv.rsaSent_mem hr hj ?_)
        rw [List.mem_singleton.mp hb, ← hnonce]
        exact List.mem_singleton_self _
    · cases hb

theorem NetInv.deliver {net : Net sha256 accepts} (inv : NetInv net) {i : ℕ}
    {call : Call sha256 accepts} {body : Term} (hi : net.calls[i]? = some call)
    (hm : Makes owned net body) :
    NetInv ⟨net.calls.set i ⟨call.endpoint, call.stage.received call.endpoint body⟩,
      .delivered i body :: net.events⟩ := by
  refine inv.event hi (inv.happened i call hi).read (fun j key seed q he => by cases he) ?_
  intro j ep hj hb
  obtain ⟨k, seen, hk, hseen⟩ := hm.exists_sent hb ⟨j, ep, hj, Or.inl rfl⟩
  exact List.mem_cons_of_mem _ (inv.rsaSent_mem hk hj hseen)

theorem endpoint_append {net : Net sha256 accepts} {call : Call sha256 accepts} {j : ℕ}
    {ep : Endpoint (idealCrates sha256 accepts)}
    (h : Net.endpoint ⟨net.calls ++ [call], net.events⟩ j = some ep) :
    net.endpoint j = some ep ∨ (j = net.calls.length ∧ ep = call.endpoint) := by
  obtain ⟨c, hc, rfl⟩ := Option.map_eq_some_iff.mp h
  rcases Nat.lt_or_ge j net.calls.length with hj | hj
  · rw [List.getElem?_append_left hj] at hc
    exact Or.inl (endpoint_eq_of_getElem hc)
  · rw [List.getElem?_append_right hj, List.getElem?_singleton] at hc
    split at hc
    · cases hc
      exact Or.inr ⟨by omega, rfl⟩
    · cases hc

theorem endpoint_append_of_some {net : Net sha256 accepts} {call : Call sha256 accepts} {j : ℕ}
    {ep : Endpoint (idealCrates sha256 accepts)} (h : net.endpoint j = some ep) :
    Net.endpoint ⟨net.calls ++ [call], net.events⟩ j = some ep := by
  obtain ⟨c, hc, rfl⟩ := Option.map_eq_some_iff.mp h
  have hj := (List.getElem?_eq_some_iff.mp hc).1
  have hi : (net.calls ++ [call])[j]? = some c := (List.getElem?_append_left hj).trans hc
  rw [Net.endpoint, hi, Option.map_some]

theorem NetInv.start {net : Net sha256 accepts} (inv : NetInv net)
    {ep : Endpoint (idealCrates sha256 accepts)}
    (hpair : ep.identity.rsaPrivateKey = ep.identity.rsaPublicKey) (hf : net.Fresh ep.draws) :
    NetInv ⟨net.calls ++ [⟨ep, .sendVersion⟩], net.events⟩ := by
  refine ⟨fun j c hj => ?_, fun j ep' hj => ?_, ?_, ?_, fun j k ep₁ ep₂ hj hk => ?_,
    fun j k ep₁ ep₂ hj hk heq => ?_⟩
  · rcases Nat.lt_or_ge j net.calls.length with hlt | hge
    · exact inv.happened j c ((List.getElem?_append_left hlt).symm.trans hj)
    · have hj' := (List.getElem?_append_right hge).symm.trans hj
      rw [List.getElem?_singleton] at hj'
      split at hj'
      · cases hj'
        trivial
      · cases hj'
  · rcases endpoint_append hj with hj | ⟨-, rfl⟩
    · exact inv.pair j ep' hj
    · exact hpair
  · refine inv.echoes.mono fun e _ earlier h j key seed q he => ?_
    obtain ⟨ep', hj, hrest⟩ := h j key seed q he
    exact ⟨ep', endpoint_append_of_some hj, hrest⟩
  · refine inv.after.mono fun e he earlier h j ep' hj hb => ?_
    rcases endpoint_append hj with hj | ⟨-, rfl⟩
    · exact h j ep' hj hb
    · exact absurd hb (hf.nonce_unseen e he)
  · rcases endpoint_append hj with hj' | ⟨-, rfl⟩ <;>
      rcases endpoint_append hk with hk' | ⟨-, rfl⟩
    · exact inv.nonce_ne_part j k ep₁ ep₂ hj' hk'
    · intro heq
      exact hf.part_not_drawn ⟨j, ep₁, hj', Or.inl heq.symm⟩
    · intro heq
      exact hf.nonce_not_drawn ⟨k, ep₂, hk', Or.inr heq⟩
    · exact hf.nonce_ne
  · rcases endpoint_append hj with hj' | ⟨hj', rfl⟩ <;>
      rcases endpoint_append hk with hk' | ⟨hk', rfl⟩
    · exact inv.nonce_inj j k ep₁ ep₂ hj' hk' heq
    · exact absurd ⟨j, ep₁, hj', Or.inl heq.symm⟩ hf.nonce_not_drawn
    · exact absurd ⟨k, ep₂, hk', Or.inl heq⟩ hf.nonce_not_drawn
    · rw [hj', hk']

theorem NetInv.step {net net' : Net sha256 accepts} (inv : NetInv net)
    (h : NetStep owned net net') : NetInv net' := by
  cases h with
  | start ep hpair _ hf => exact inv.start hpair hf
  | write hi hw => exact inv.write hi hw
  | deliver hi _ hm => exact inv.deliver hi hm
  | check hi _ answer => exact inv.move hi ((inv.happened _ _ hi).check answer)
  | fail hi e => exact inv.move hi ((inv.happened _ _ hi).fail e)

theorem NetInv.init : NetInv (⟨[], []⟩ : Net sha256 accepts) where
  happened i call hi := by simp at hi
  pair i ep hi := by simp [Net.endpoint] at hi
  echoes := trivial
  after := trivial
  nonce_ne_part i j ep ep' hi := by simp [Net.endpoint] at hi
  nonce_inj i j ep ep' hi := by simp [Net.endpoint] at hi

theorem NetInv.of_reachable {net : Net sha256 accepts} (h : net.Reachable owned) : NetInv net := by
  induction h with
  | refl => exact NetInv.init
  | tail _ hstep ih => exact ih.step hstep

/-- What an honest call encrypts was asked for with the key and the nonce. -/
theorem Throughout.exists_presented
    {endpoint : ℕ → Option (Endpoint (idealCrates sha256 accepts))} {events : List Event}
    (h : Throughout (EchoesRequest endpoint) events) {j : ℕ} {key : RsaPublicKey} {seed : ℕ}
    {q : InitAesPacket} (hj : Event.sent j (.cipher key seed (.plain (.initAes q))) ∈ events) :
    ∃ ep, endpoint j = some ep ∧ q.aesKeyPart = ep.draws.aesKeyPart ∧
      Presented j ep key q.nonce events := by
  obtain ⟨earlier, hsuf, hecho⟩ := h.of_mem hj
  obtain ⟨ep, hep, hpart, hne, r, hr, hrest⟩ := hecho j _ _ _ rfl
  exact ⟨ep, hep, hpart, hne, r, hsuf.subset (List.mem_cons_of_mem _ hr), hrest⟩

/-- **What an honest call knows when it returns `Ok`.**  The id is that of a key
it was shown in the session, not its own, and its key part went out encrypted for
that key, with the nonce that came with it.  The key part it accepted came in
under its own key with the nonce it drew for this call, and every event that
carries that nonce follows the one in which the call sent it.  If an honest call
produced what was accepted, then it had been sent this public key and this nonce. -/
theorem accepted_aes_is_fresh (owned : RsaPublicKey → Prop) (net : Net sha256 accepts)
    (hreach : net.Reachable owned) (i : ℕ) (ep : Endpoint (idealCrates sha256 accepts))
    (peerId : PeerID) (addr : String) (aesKey : Bytes)
    (hcall : net.calls[i]? = some ⟨ep, .ok peerId addr aesKey⟩) :
    ∃ key seed part later earlier accepted,
      fromRsaPublicKey sha256 key = peerId ∧ peerId ≠ ep.identity.peerId ∧
      (∃ nonce, Presented i ep key nonce earlier ∧
        Event.sent i (.cipher key ep.draws.seed (.plain (ep.aesPacket nonce))) ∈ earlier) ∧
      accepted = Term.cipher ep.identity.rsaPublicKey seed
        (.plain (.initAes ⟨part, ep.draws.nonce⟩)) ∧
      net.events = later ++ .delivered i accepted :: earlier ∧
      rsaSent i ep ∈ earlier ∧
      (∀ newer e older, net.events = newer ++ e :: older → ep.draws.nonce ∈ e.body.drawn →
        rsaSent i ep ∈ e :: older) ∧
      ∀ j, Event.sent j accepted ∈ net.events →
        ∃ ep', net.endpoint j = some ep' ∧ part = ep'.draws.aesKeyPart ∧
          Presented j ep' ep.identity.rsaPublicKey ep.draws.nonce net.events := by
  have inv := NetInv.of_reachable hreach
  have hend : net.endpoint i = some ep := endpoint_eq_of_getElem hcall
  obtain ⟨key, seed, part, later, earlier, hkey, hevents, hrsa, hne, nonce, hanswer⟩ :=
    inv.happened i _ hcall
  rw [inv.pair i ep hend] at hevents
  have hpresented : Presented i ep key nonce earlier := by
    have hechoes := inv.echoes
    rw [hevents] at hechoes
    obtain ⟨ep', hend', -, hpresented⟩ := hechoes.before.exists_presented hanswer
    cases hend.symm.trans hend'
    exact hpresented
  refine ⟨key, seed, part, later, earlier, _, hkey, hkey ▸ hne, ⟨nonce, hpresented, hanswer⟩, rfl,
    hevents, hrsa, ?_, ?_⟩
  · intro newer e older hsplit hb
    have hafter := inv.after
    rw [hsplit] at hafter
    exact hafter.of_append i ep hend hb
  · intro j hj
    exact inv.echoes.exists_presented hj

/-! ### An attack -/

theorem reachable_start {ep : Endpoint (idealCrates sha256 accepts)}
    (hpair : ep.identity.rsaPrivateKey = ep.identity.rsaPublicKey)
    (hhonest : ¬ owned ep.identity.rsaPublicKey) (hdraws : ep.draws.nonce ≠ ep.draws.aesKeyPart) :
    Net.Reachable owned ⟨[⟨ep, .sendVersion⟩], []⟩ := by
  have hnone : ∀ b, ¬ Net.Drawn (⟨[], []⟩ : Net sha256 accepts) b := by
    rintro b ⟨i, ep', hi, -⟩
    simp [Net.endpoint] at hi
  have hfresh : Net.Fresh (⟨[], []⟩ : Net sha256 accepts) ep.draws :=
    ⟨hdraws, hnone _, hnone _, fun e he => (by cases he), fun e he => (by cases he)⟩
  exact .single (.start ep hpair hhonest hfresh)

theorem reachable_write {ep : Endpoint (idealCrates sha256 accepts)} {stage stage' : Stage}
    {events : List Event} {body : Term} (h : Net.Reachable owned ⟨[⟨ep, stage⟩], events⟩)
    (hw : stage.awaits ep = .write (.ok body)) (hs : stage.sent = stage') :
    Net.Reachable owned ⟨[⟨ep, stage'⟩], .sent 0 body :: events⟩ := by
  subst hs
  have hi : (⟨[⟨ep, stage⟩], events⟩ : Net sha256 accepts).calls[0]? = some ⟨ep, stage⟩ := rfl
  have hstep : NetStep owned _ _ := .write hi hw
  exact h.tail hstep

theorem reachable_deliver {ep : Endpoint (idealCrates sha256 accepts)} {stage stage' : Stage}
    {events : List Event} {body : Term} (h : Net.Reachable owned ⟨[⟨ep, stage⟩], events⟩)
    (hf : stage.awaits ep = .frame) (hm : Makes owned ⟨[⟨ep, stage⟩], events⟩ body)
    (hs : stage.received ep body = stage') :
    Net.Reachable owned ⟨[⟨ep, stage'⟩], .delivered 0 body :: events⟩ := by
  subst hs
  have hi : (⟨[⟨ep, stage⟩], events⟩ : Net sha256 accepts).calls[0]? = some ⟨ep, stage⟩ := rfl
  have hstep : NetStep owned _ _ := .deliver hi hf hm
  exact h.tail hstep

theorem reachable_check {ep : Endpoint (idealCrates sha256 accepts)} {stage stage' : Stage}
    {events : List Event} {peerId : PeerID} (h : Net.Reachable owned ⟨[⟨ep, stage⟩], events⟩)
    (hc : stage.awaits ep = .contains peerId) (hs : stage.checked false = stage') :
    Net.Reachable owned ⟨[⟨ep, stage'⟩], events⟩ := by
  subst hs
  have hi : (⟨[⟨ep, stage⟩], events⟩ : Net sha256 accepts).calls[0]? = some ⟨ep, stage⟩ := rfl
  have hstep : NetStep owned _ _ := .check hi hc false
  exact h.tail hstep

/-- Two different ids are ordered, so the AES key is made. -/
theorem concatAesKeyParts_isOk {a b : PeerID} (h : a ≠ b) (ours theirs : Bytes) :
    ∃ aesKey, concatAesKeyParts a b ours theirs = .ok aesKey := by
  rw [concatAesKeyParts]
  cases hc : compare a b with
  | lt => exact ⟨_, rfl⟩
  | eq => exact absurd (Std.LawfulEqOrd.eq_of_compare hc) h
  | gt => exact ⟨_, rfl⟩

/-- The attacker makes a packet out of the nonce of the only call, once that is sent. -/
theorem makes_of_rsaSent {ep : Endpoint (idealCrates sha256 accepts)} {stage : Stage}
    {events : List Event} (p : Packet) (hsent : rsaSent 0 ep ∈ events)
    (hp : ∀ b ∈ p.drawn, b = ep.draws.nonce) : Makes owned ⟨[⟨ep, stage⟩], events⟩ (.plain p) :=
  .plain p fun b hb _ => ⟨0, _, _, hsent, .plain _, List.mem_singleton.mpr (hp b hb)⟩

/-- The attacker shows the only call a key and the nonce of that call. -/
theorem exists_recvAes (owned : RsaPublicKey → Prop)
    (ep : Endpoint (idealCrates sha256 accepts)) (key : RsaPublicKey)
    (hpair : ep.identity.rsaPrivateKey = ep.identity.rsaPublicKey)
    (hhonest : ¬ owned ep.identity.rsaPublicKey) (hdraws : ep.draws.nonce ≠ ep.draws.aesKeyPart)
    (hkey : accepts key = true) (hne : ep.identity.peerId ≠ fromRsaPublicKey sha256 key)
    (hexp : ep.expectedPeerId = none) :
    ∃ events, Net.Reachable owned ⟨[⟨ep, .recvAes key⟩], events⟩ ∧ rsaSent 0 ep ∈ events ∧
      Event.sent 0 (.cipher key ep.draws.seed (.plain (ep.aesPacket ep.draws.nonce))) ∈ events := by
  have h₁ : Net.Reachable owned ⟨[⟨ep, .recvVersion⟩], [.sent 0 (.plain versionPacket)]⟩ :=
    reachable_write (reachable_start hpair hhonest hdraws) rfl rfl
  have h₂ := reachable_deliver h₁ rfl (.plain versionPacket fun b hb => by cases hb)
    receivedVersion_versionPacket
  have h₃ := reachable_write h₂ rfl rfl
  have hreceived : Stage.received ep (.plain (.initRsa ⟨leMin key.e, leMin key.n, ep.draws.nonce⟩))
      .recvRsa = .checkPool key ep.draws.nonce := by
    simp only [Stage.received, decoded, idealCrates, receivedRsa, ofLe_leMin,
      ep.draws.nonce_length, hkey, ne_eq, not_true_eq_false, if_false, if_true, checkIdentity,
      if_neg hne, hexp]
  have h₄ := reachable_deliver h₃ rfl
    (makes_of_rsaSent (.initRsa ⟨leMin key.e, leMin key.n, ep.draws.nonce⟩) List.mem_cons_self
      fun b hb => List.mem_singleton.mp hb) hreceived
  have h₅ := reachable_check h₄ rfl rfl
  have h₆ := reachable_write h₅ rfl rfl
  exact ⟨_, h₆, List.mem_cons_of_mem _ (List.mem_cons_of_mem _ List.mem_cons_self),
    List.mem_cons_self⟩

/-- The nonce of a call is a key part that it accepts. -/
theorem received_nonce {ep : Endpoint (idealCrates sha256 accepts)} {key : RsaPublicKey}
    {aesKey : Bytes} (hpair : ep.identity.rsaPrivateKey = ep.identity.rsaPublicKey)
    (haes : concatAesKeyParts ep.identity.peerId (fromRsaPublicKey sha256 key)
      ep.draws.aesKeyPart ep.draws.nonce = .ok aesKey) :
    Stage.received ep (.cipher ep.identity.rsaPublicKey 0
      (.plain (.initAes ⟨ep.draws.nonce, ep.draws.nonce⟩))) (.recvAes key) =
      .sendEhlo (fromRsaPublicKey sha256 key) aesKey := by
  simp only [Stage.received, decoded, idealCrates, hpair, if_true, receivedAes,
    ep.draws.nonce_length, ne_eq, not_true_eq_false, if_false, haes]

/-- **Anybody can be impersonated.**  For every honest call and every key that
`RsaPublicKey::new` accepts there is a run in which the call returns `Ok` with
the id of that key, although it is the only call there is and the attacker may
own no private key. -/
theorem exists_impersonation (owned : RsaPublicKey → Prop)
    (ep : Endpoint (idealCrates sha256 accepts)) (key : RsaPublicKey)
    (hpair : ep.identity.rsaPrivateKey = ep.identity.rsaPublicKey)
    (hhonest : ¬ owned ep.identity.rsaPublicKey) (hdraws : ep.draws.nonce ≠ ep.draws.aesKeyPart)
    (hkey : accepts key = true) (hne : ep.identity.peerId ≠ fromRsaPublicKey sha256 key)
    (hexp : ep.expectedPeerId = none) :
    ∃ addr aesKey events, Net.Reachable owned
      ⟨[⟨ep, .ok (fromRsaPublicKey sha256 key) addr aesKey⟩], events⟩ := by
  -- the nonce of the call, once it is sent, serves as nonce and as key part
  obtain ⟨aesKey, haes⟩ := concatAesKeyParts_isOk hne ep.draws.aesKeyPart ep.draws.nonce
  obtain ⟨events, h₆, hsent, -⟩ := exists_recvAes owned ep key hpair hhonest hdraws hkey hne hexp
  have h₇ := reachable_deliver h₆ rfl
    (.cipher _ 0 (makes_of_rsaSent (.initAes ⟨ep.draws.nonce, ep.draws.nonce⟩) hsent
      fun b hb => by simpa [Packet.drawn] using hb)) (received_nonce hpair haes)
  have h₈ := reachable_write h₇ rfl rfl
  have h₉ := reachable_deliver h₈ rfl (.plain (.ehlo ⟨"local-1"⟩) fun b hb => by cases hb) rfl
  exact ⟨_, _, _, h₉⟩

end Invariant

/-! ### A node that does nothing -/

/-- Odd exponents from three on, with larger odd moduli. -/
def acceptsOdd (key : RsaPublicKey) : Bool :=
  key.e % 2 == 1 && 3 ≤ key.e && key.n % 2 == 1 && key.e < key.n

def nodeOf (key : RsaPublicKey) (addr : String) : Identity (idealCrates realSha256 acceptsOdd) where
  rsaPrivateKey := key
  rsaPublicKey := key
  peerId := fromRsaPublicKey realSha256 key
  addr := addr
  peerId_eq := rfl

/-- A call on the node of one small key. -/
def callA : Endpoint (idealCrates realSha256 acceptsOdd) where
  identity := nodeOf smallKeyA "local-0"
  expectedPeerId := none
  draws :=
    { nonce := List.replicate 16 1
      aesKeyPart := List.replicate 16 2
      seed := 0
      nonce_length := List.length_replicate
      aesKeyPart_length := List.length_replicate }

theorem callA_impersonation :
    ∃ addr aesKey events, Net.Reachable (fun _ => False)
      ⟨[⟨callA, .ok (nodeOf smallKeyB "local-1").peerId addr aesKey⟩], events⟩ :=
  exists_impersonation (fun _ => False) callA smallKeyB rfl (fun h => h) (by decide) (by decide)
    smallKeys_peerId_ne rfl

/-- The run of `callA_impersonation` carries its nonce and its key. -/
theorem accepted_aes_is_fresh_callA :
    ∃ (net : Net realSha256 acceptsOdd) (peerId : PeerID),
      net.Reachable (fun _ => False) ∧ rsaSent 0 callA ∈ net.events ∧
      peerId ≠ callA.identity.peerId := by
  obtain ⟨addr, aesKey, events, h⟩ := callA_impersonation
  obtain ⟨_, _, _, later, earlier, _, _, hne, _, _, hevents, hrsa, _, _⟩ :=
    accepted_aes_is_fresh (fun _ => False) _ h 0 callA _ addr aesKey rfl
  refine ⟨_, _, h, ?_, hne⟩
  rw [hevents]
  exact List.mem_append_right _ (List.mem_cons_of_mem _ hrsa)

/-- **No authentication.**  A call returns `Ok` with the id of an honest node
whose private key the attacker does not own, and that node has made no call. -/
theorem no_authentication :
    ∃ (net : Net realSha256 acceptsOdd) (b : Identity (idealCrates realSha256 acceptsOdd))
      (addr : String) (aesKey : Bytes),
      net.Reachable (fun _ => False) ∧ b.rsaPrivateKey = b.rsaPublicKey ∧
      net.calls[0]? = some ⟨callA, .ok b.peerId addr aesKey⟩ ∧
      ∀ j ep, net.endpoint j = some ep → ep.identity.peerId ≠ b.peerId := by
  obtain ⟨addr, aesKey, events, h⟩ := callA_impersonation
  refine ⟨_, nodeOf smallKeyB "local-1", addr, aesKey, h, rfl, rfl, fun j ep hj => ?_⟩
  obtain ⟨call, hcall, rfl⟩ := Option.map_eq_some_iff.mp hj
  rw [List.getElem?_singleton] at hcall
  split at hcall
  · cases hcall
    exact smallKeys_peerId_ne
  · cases hcall

end Tewta
