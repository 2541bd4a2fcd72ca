import Tewta.Handshake.Attacker

/-!
# The AES key stays secret

A call of `handshake_raw` sends its key part once, encrypted to the key that it was shown.  If
the attacker does not own that key it never reads the part: the only honest calls that can open
the frame are those of the node with that key, and what such a call accepts it neither sends nor
encrypts again.  All that an honest call repeats is a nonce that it has read in the clear.

`Shields` is the set of bodies that tell the attacker nothing of a key part.  It is closed under
all that the attacker can make (`Makes.shields`), and honest calls send nothing outside of it
(`SecrecyInv.write`).
-/

namespace Tewta

open ByteString PeerID

variable {sha256 : Bytes → Bytes32} {accepts : RsaPublicKey → Bool}

section Secrecy

variable (owned : RsaPublicKey → Prop)

/-- **What the attacker can derive**, in pieces of the size of a nonce or a key part: those that
are no secrets or that it has read, put one after the other and taken apart again. -/
inductive Derives (net : Net sha256 accepts) : Bytes → Prop
  | piece {b : Bytes} (hlen : b.length = 16) (h : net.Drawn b → Learnt owned net.events b) :
      Derives net b
  | append {a b : Bytes} (ha : Derives net a) (hb : Derives net b) : Derives net (a ++ b)
  | take {b : Bytes} (n : ℕ) (h : Derives net b) : Derives net (b.take (n * 16))
  | drop {b : Bytes} (n : ℕ) (h : Derives net b) : Derives net (b.drop (n * 16))

/-- A body in which `b` is under a key that the attacker does not own. -/
def Term.Shields (b : Bytes) : Term → Prop
  | .plain p => b ∉ p.drawn
  | .cipher key _ t => ¬ owned key ∨ t.Shields b
  | .junk _ => True

/-- A call has not sent its key part under a key of the attacker's. -/
def Kept (i : ℕ) (events : List Event) : Prop :=
  ∀ key seed q, Event.sent i (.cipher key seed (.plain (.initAes q))) ∈ events → ¬ owned key

/-- Under which keys a call can have sent its key part, by the stage it is at. -/
def SentUnder (i : ℕ) (events : List Event) : Stage → Prop
  | .recvAes key => ∀ key' seed q,
    Event.sent i (.cipher key' seed (.plain (.initAes q))) ∈ events → key' = key
  | .sendEhlo _ _ => True
  | .recvEhlo _ _ => True
  | .ok _ _ _ => True
  | .err _ => True
  | _ => ∀ key seed q, Event.sent i (.cipher key seed (.plain (.initAes q))) ∉ events

structure SecrecyInv (net : Net sha256 accepts) : Prop extends NetInv net where
  part_inj : ∀ i j ep ep', net.endpoint i = some ep → net.endpoint j = some ep' →
    ep.draws.aesKeyPart = ep'.draws.aesKeyPart → i = j
  under : ∀ i call, net.calls[i]? = some call → SentUnder i net.events call.stage
  started : ∀ i body, Event.sent i body ∈ net.events → i < net.calls.length
  shielded : ∀ i ep, net.endpoint i = some ep → Kept owned i net.events →
    ∀ e ∈ net.events, e.body.Shields owned ep.draws.aesKeyPart

end Secrecy

/-! ### What can be derived -/

section Derives

variable {owned : RsaPublicKey → Prop} {net : Net sha256 accepts}

/-- What is derived is made of pieces that are no secrets or that were read. -/
theorem Derives.exists_pieces {b : Bytes} (h : Derives owned net b) :
    ∃ pieces : List Bytes, b = pieces.flatten ∧
      ∀ p ∈ pieces, p.length = 16 ∧ (net.Drawn p → Learnt owned net.events p) := by
  have hsum : ∀ (n : ℕ) (pieces : List Bytes), (∀ p ∈ pieces, p.length = 16) →
      pieces.flatten.take (n * 16) = (pieces.take n).flatten ∧
        pieces.flatten.drop (n * 16) = (pieces.drop n).flatten := by
    intro n pieces hlen
    induction n generalizing pieces with
    | zero => simp
    | succ n ih =>
      cases pieces with
      | nil => simp
      | cons p pieces =>
        obtain ⟨htake, hdrop⟩ := ih pieces fun q hq => hlen q (List.mem_cons_of_mem _ hq)
        have hp := hlen p List.mem_cons_self
        have hn : (n + 1) * 16 = p.length + n * 16 := by omega
        rw [List.flatten_cons, hn, List.take_length_add_append, List.drop_length_add_append,
          htake, hdrop]
        exact ⟨rfl, rfl⟩
  induction h with
  | @piece b hlen h =>
    refine ⟨[b], (List.flatten_singleton).symm, fun p hp => ?_⟩
    obtain rfl := List.mem_singleton.mp hp
    exact ⟨hlen, h⟩
  | append _ _ iha ihb =>
    obtain ⟨as, rfl, has⟩ := iha
    obtain ⟨bs, rfl, hbs⟩ := ihb
    refine ⟨as ++ bs, List.flatten_append.symm, fun p hp => ?_⟩
    rcases List.mem_append.mp hp with hp | hp
    · exact has p hp
    · exact hbs p hp
  | take n _ ih =>
    obtain ⟨pieces, rfl, hpieces⟩ := ih
    exact ⟨pieces.take n, (hsum n pieces fun p hp => (hpieces p hp).1).1,
      fun p hp => hpieces p (List.mem_of_mem_take hp)⟩
  | drop n _ ih =>
    obtain ⟨pieces, rfl, hpieces⟩ := ih
    exact ⟨pieces.drop n, (hsum n pieces fun p hp => (hpieces p hp).1).2,
      fun p hp => hpieces p (List.mem_of_mem_drop hp)⟩

/-- A drawn piece can be derived if and only if it was read. -/
theorem learnt_of_derives {b : Bytes} (h : Derives owned net b) (hlen : b.length = 16)
    (hdrawn : net.Drawn b) : Learnt owned net.events b := by
  obtain ⟨pieces, rfl, hpieces⟩ := h.exists_pieces
  cases pieces with
  | nil => cases hlen
  | cons p pieces =>
    obtain ⟨hp, hknown⟩ := hpieces p List.mem_cons_self
    have hrest : pieces.flatten = [] := by
      rw [List.flatten_cons, List.length_append, hp] at hlen
      exact List.length_eq_zero_iff.mp (by omega)
    rw [List.flatten_cons, hrest, List.append_nil] at hdrawn ⊢
    exact hknown hdrawn

theorem derives_part {ourPeerId theirPeerId : PeerID} {ours theirs aesKey : Bytes}
    (hours : ours.length = 16) (htheirs : theirs.length = 16)
    (haes : concatAesKeyParts ourPeerId theirPeerId ours theirs = .ok aesKey)
    (h : Derives owned net aesKey) : Derives owned net ours := by
  rw [concatAesKeyParts] at haes
  split at haes
  · cases haes
    have htake := h.take 1
    rw [one_mul, ← hours, List.take_left'  rfl] at htake
    exact htake
  · cases haes
    have hdrop := h.drop 1
    rw [one_mul, ← htheirs, List.drop_left' rfl] at hdrop
    exact hdrop
  · cases haes

end Derives

/-! ### What the attacker makes tells it nothing -/

section Shields

variable {owned : RsaPublicKey → Prop} {net : Net sha256 accepts}

theorem Term.Shields.of_drawn {b : Bytes} {t : Term} (h : b ∉ t.drawn) : t.Shields owned b := by
  induction t with
  | plain p => exact h
  | cipher key seed t ih => exact Or.inr (ih h)
  | junk bytes => trivial

theorem Opens.not_mem {b : Bytes} {t : Term} {p : Packet} (h : Opens owned t p)
    (hshields : t.Shields owned b) : b ∉ p.drawn := by
  induction h with
  | plain p => exact hshields
  | cipher hk _ ih => exact ih (hshields.resolve_left (not_not.mpr hk))

theorem not_learnt {events : List Event} {b : Bytes}
    (h : ∀ e ∈ events, e.body.Shields owned b) : ¬ Learnt owned events b := by
  rintro ⟨i, body, p, hsent, hopens, hb⟩
  exact hopens.not_mem (h _ hsent) hb

/-- **The attacker makes only what shields** a drawn secret that all events shield. -/
theorem Makes.shields {b : Bytes} {t : Term} (hm : Makes owned net t) (hdrawn : net.Drawn b)
    (h : ∀ e ∈ net.events, e.body.Shields owned b) : t.Shields owned b := by
  induction hm with
  | seen hsent => exact h _ hsent
  | opened _ hk ih => exact ih.resolve_left (not_not.mpr hk)
  | plain p hp => exact fun hb => not_learnt h (hp b hb hdrawn)
  | cipher key seed _ ih => exact Or.inr ih
  | junk bytes => trivial

end Shields

/-! ### A call sends its key part once -/

section Once

variable {i : ℕ} {ep : Endpoint (idealCrates sha256 accepts)} {events : List Event}

theorem SentUnder.cons {stage : Stage} (h : SentUnder i events stage) {e : Event}
    (he : ∀ key seed q, e ≠ .sent i (.cipher key seed (.plain (.initAes q)))) :
    SentUnder i (e :: events) stage := by
  have hmem : ∀ key seed q, Event.sent i (.cipher key seed (.plain (.initAes q))) ∈ e :: events →
      Event.sent i (.cipher key seed (.plain (.initAes q))) ∈ events := by
    intro key seed q hin
    exact (List.mem_cons.mp hin).resolve_left fun heq => he key seed q heq.symm
  cases stage with
  | recvAes key => exact fun key' seed q hin => h key' seed q (hmem key' seed q hin)
  | sendEhlo peerId aesKey => trivial
  | recvEhlo peerId aesKey => trivial
  | ok peerId addr aesKey => trivial
  | err e' => trivial
  | _ => exact fun key seed q hin => h key seed q (hmem key seed q hin)

theorem SentUnder.write {stage : Stage} {body : Term} (h : SentUnder i events stage)
    (hw : stage.awaits ep = .write (.ok body)) :
    SentUnder i (.sent i body :: events) stage.sent := by
  rcases body_of_write hw with ⟨rfl, rfl⟩ | ⟨rfl, rfl⟩ | ⟨key, nonce, rfl, rfl⟩ |
    ⟨peerId, aesKey, rfl, rfl⟩
  · have hnext : SentUnder i events .recvVersion := h
    exact hnext.cons (by rintro _ _ _ ⟨⟩)
  · have hnext : SentUnder i events .recvRsa := h
    exact hnext.cons (by rintro _ _ _ ⟨⟩)
  · intro key' seed q hin
    rcases List.mem_cons.mp hin with heq | hin
    · cases heq
      rfl
    · exact absurd hin (h key' seed q)
  · trivial

theorem SentUnder.check {stage : Stage} (h : SentUnder i events stage) (answer : Bool) :
    SentUnder i events (stage.checked answer) := by
  cases stage with
  | checkPool key nonce =>
    cases answer with
    | true => trivial
    | false => exact h
  | _ => exact h

theorem SentUnder.fail {stage : Stage} (h : SentUnder i events stage) (e : HandshakeError) :
    SentUnder i events (stage.failed e) := by
  cases stage with
  | ok peerId addr aesKey => exact h
  | _ => trivial

theorem SentUnder.read {stage : Stage} (h : SentUnder i events stage) (body : Term) :
    SentUnder i events (stage.received ep body) := by
  have hreceives := receives ep stage body
  generalize stage.received ep body = next at hreceives
  cases hreceives with
  | version => exact h
  | rsa _ _ => exact h
  | aes _ _ _ => trivial
  | ehlo => trivial
  | err => trivial
  | other => exact h

end Once

/-! ### The invariant -/

section Invariant

variable {owned : RsaPublicKey → Prop} {net net' : Net sha256 accepts}

theorem Kept.of_cons {i : ℕ} {e : Event} {events : List Event} (h : Kept owned i (e :: events)) :
    Kept owned i events :=
  fun key seed q hin => h key seed q (List.mem_cons_of_mem e hin)

theorem SecrecyInv.move (inv : SecrecyInv owned net) {i : ℕ} {call : Call sha256 accepts}
    (hi : net.calls[i]? = some call) {stage : Stage}
    (hnet : NetInv ⟨net.calls.set i ⟨call.endpoint, stage⟩, net.events⟩)
    (hunder : SentUnder i net.events stage) :
    SecrecyInv owned ⟨net.calls.set i ⟨call.endpoint, stage⟩, net.events⟩ := by
  have hend := endpoint_set hi stage net.events
  refine ⟨hnet, ?_, fun j c hj => ?_, fun j body hsent => ?_, ?_⟩
  · rw [hend]
    exact inv.part_inj
  · rcases getElem?_set_cases hj with ⟨rfl, rfl⟩ | hj
    · exact hunder
    · exact inv.under j c hj
  · rw [List.length_set]
    exact inv.started j body hsent
  · rw [hend]
    exact inv.shielded

theorem SecrecyInv.event (inv : SecrecyInv owned net) {i : ℕ} {call : Call sha256 accepts}
    (hi : net.calls[i]? = some call) {stage : Stage} {e : Event}
    (hnet : NetInv ⟨net.calls.set i ⟨call.endpoint, stage⟩, e :: net.events⟩)
    (hunder : SentUnder i (e :: net.events) stage)
    (hown : ∀ j body, e = .sent j body → j = i)
    (hshields : ∀ j ep, net.endpoint j = some ep → Kept owned j (e :: net.events) →
      e.body.Shields owned ep.draws.aesKeyPart) :
    SecrecyInv owned ⟨net.calls.set i ⟨call.endpoint, stage⟩, e :: net.events⟩ := by
  have hend := endpoint_set hi stage (e :: net.events)
  have hlt := (List.getElem?_eq_some_iff.mp hi).1
  refine ⟨hnet, ?_, fun j c hj => ?_, fun j body hsent => ?_, fun j ep hj hkept e' he' => ?_⟩
  · rw [hend]
    exact inv.part_inj
  · by_cases hij : j = i
    · subst hij
      rcases getElem?_set_cases hj with ⟨-, rfl⟩ | hj'
      · exact hunder
      · rw [List.getElem?_set_self hlt] at hj
        cases hj
        exact hunder
    · rcases getElem?_set_cases hj with ⟨rfl, -⟩ | hj
      · exact absurd rfl hij
      · refine (inv.under j c hj).cons fun key seed q heq => hij ?_
        exact hown j _ heq
  · rw [List.length_set]
    rcases List.mem_cons.mp hsent with heq | hsent
    · rw [hown j body heq.symm]
      exact hlt
    · exact inv.started j body hsent
  · rw [hend] at hj
    rcases List.mem_cons.mp he' with rfl | he'
    · exact hshields j ep hj hkept
    · exact inv.shielded j ep hj hkept.of_cons e' he'

/-- **What an honest call writes**: versions and addresses, its own nonce, and its own key part
with a nonce that it has read in the clear. -/
theorem SecrecyInv.write (inv : SecrecyInv owned net) {i : ℕ} {call : Call sha256 accepts}
    {body : Term} (hi : net.calls[i]? = some call)
    (hw : call.stage.awaits call.endpoint = .write (.ok body)) :
    SecrecyInv owned
      ⟨net.calls.set i ⟨call.endpoint, call.stage.sent⟩, .sent i body :: net.events⟩ := by
  have hend := endpoint_eq_of_getElem hi
  refine inv.event hi (inv.toNetInv.write hi hw) ((inv.under i call hi).write hw)
    (fun j body' heq => by cases heq; rfl) fun j ep hj hkept => ?_
  show body.Shields owned ep.draws.aesKeyPart
  rcases body_of_write hw with ⟨-, rfl⟩ | ⟨-, rfl⟩ | ⟨key, nonce, hstage, rfl⟩ | ⟨-, -, -, rfl⟩
  · exact List.not_mem_nil
  · intro hb
    exact inv.nonce_ne_part i j call.endpoint ep hend hj (List.mem_singleton.mp hb).symm
  · by_cases hij : i = j
    · -- its own key part, which is kept
      subst hij
      exact Or.inl (hkept key _ _ List.mem_cons_self)
    · refine Or.inr fun hb => ?_
      rcases List.mem_cons.mp hb with hpart | hb
      · exact hij (inv.part_inj i j call.endpoint ep hend hj hpart.symm)
      · -- the nonce was in a packet that shields the key part
        have hhappened := inv.happened i call hi
        rw [hstage] at hhappened
        obtain ⟨-, -, r, hr, hnonce, -⟩ := hhappened
        apply inv.shielded j ep hj hkept.of_cons _ hr
        rw [List.mem_singleton.mp hb, ← hnonce]
        exact List.mem_singleton_self _
  · exact List.not_mem_nil

theorem SecrecyInv.deliver (inv : SecrecyInv owned net) {i : ℕ} {call : Call sha256 accepts}
    {body : Term} (hi : net.calls[i]? = some call) (hm : Makes owned net body) :
    SecrecyInv owned ⟨net.calls.set i ⟨call.endpoint, call.stage.received call.endpoint body⟩,
      .delivered i body :: net.events⟩ := by
  refine inv.event hi (inv.toNetInv.deliver hi hm) ?_ (fun j body' heq => by cases heq)
    fun j ep hj hkept => ?_
  · exact ((inv.under i call hi).read body).cons (by rintro _ _ _ ⟨⟩)
  · exact hm.shields ⟨j, ep, hj, Or.inr rfl⟩ (inv.shielded j ep hj hkept.of_cons)

theorem SecrecyInv.start (inv : SecrecyInv owned net) {ep : Endpoint (idealCrates sha256 accepts)}
    (hpair : ep.identity.rsaPrivateKey = ep.identity.rsaPublicKey) (hf : net.Fresh ep.draws) :
    SecrecyInv owned ⟨net.calls ++ [⟨ep, .sendVersion⟩], net.events⟩ := by
  refine ⟨inv.toNetInv.start hpair hf, fun j k ep₁ ep₂ hj hk heq => ?_, fun j c hj => ?_,
    fun j body hsent => ?_, fun j ep' hj hkept e he => ?_⟩
  · rcases endpoint_append hj with hj' | ⟨hj', rfl⟩ <;>
      rcases endpoint_append hk with hk' | ⟨hk', rfl⟩
    · exact inv.part_inj j k ep₁ ep₂ hj' hk' heq
    · exact absurd ⟨j, ep₁, hj', Or.inr heq.symm⟩ hf.part_not_drawn
    · exact absurd ⟨k, ep₂, hk', Or.inr heq⟩ hf.part_not_drawn
    · rw [hj', hk']
  · rcases Nat.lt_or_ge j net.calls.length with hlt | hge
    · exact inv.under j c ((List.getElem?_append_left hlt).symm.trans hj)
    · have hj' := (List.getElem?_append_right hge).symm.trans hj
      rw [List.getElem?_singleton] at hj'
      split at hj'
      · cases hj'
        exact fun key seed q hsent => absurd (inv.started j _ hsent) (Nat.not_lt.mpr hge)
      · cases hj'
  · rw [List.length_append]
    exact Nat.lt_add_right _ (inv.started j body hsent)
  · rcases endpoint_append hj with hj | ⟨-, rfl⟩
    · exact inv.shielded j ep' hj hkept e he
    · exact .of_drawn (hf.part_unseen e he)

theorem SecrecyInv.step (inv : SecrecyInv owned net) (h : NetStep owned net net') :
    SecrecyInv owned net' := by
  cases h with
  | start ep hpair _ hf => exact inv.start hpair hf
  | write hi hw => exact inv.write hi hw
  | deliver hi _ hm => exact inv.deliver hi hm
  | check hi _ answer =>
    exact inv.move hi (inv.toNetInv.move hi ((inv.happened _ _ hi).check answer))
      ((inv.under _ _ hi).check answer)
  | fail hi e =>
    exact inv.move hi (inv.toNetInv.move hi ((inv.happened _ _ hi).fail e))
      ((inv.under _ _ hi).fail e)

theorem SecrecyInv.init : SecrecyInv owned (⟨[], []⟩ : Net sha256 accepts) where
  toNetInv := NetInv.init
  part_inj i j ep ep' hi := by simp [Net.endpoint] at hi
  under i call hi := by simp at hi
  started i body hsent := by cases hsent
  shielded i ep hi := by simp [Net.endpoint] at hi

theorem SecrecyInv.of_steps (inv : SecrecyInv owned net)
    (h : Relation.ReflTransGen (NetStep owned) net net') : SecrecyInv owned net' := by
  induction h with
  | refl => exact inv
  | tail _ hstep ih => exact ih.step hstep

/-! ### After the AES key is made -/

/-- The AES key is made of our part and one of sixteen bytes that was received. -/
theorem exists_part_of_received {ep : Endpoint (idealCrates sha256 accepts)}
    {key : RsaPublicKey} {body : Term} {peerId : PeerID} {aesKey : Bytes}
    (h : Stage.received ep body (.recvAes key) = .sendEhlo peerId aesKey) :
    ∃ part, part.length = 16 ∧ concatAesKeyParts ep.identity.peerId
      (fromRsaPublicKey sha256 key) ep.draws.aesKeyPart part = .ok aesKey := by
  have hreceives := receives ep (.recvAes key) body
  rw [h] at hreceives
  cases hreceives with
  | aes hlen _ haes => exact ⟨_, hlen, haes⟩

/-- A call has made its AES key, or will not. -/
def Stage.isPastAes : Stage → Bool
  | .sendEhlo _ _ => true
  | .recvEhlo _ _ => true
  | .ok _ _ _ => true
  | .err _ => true
  | _ => false

/-- A call has made its AES key, and its key part has not gone out under a key of the
attacker's. -/
def Sealed (owned : RsaPublicKey → Prop) (i : ℕ) (ep : Endpoint (idealCrates sha256 accepts))
    (net : Net sha256 accepts) : Prop :=
  (∃ stage : Stage, net.calls[i]? = some ⟨ep, stage⟩ ∧ stage.isPastAes = true) ∧
    Kept owned i net.events

theorem Stage.isPastAes_sent {stage : Stage} (h : stage.isPastAes = true) :
    stage.sent.isPastAes = true := by
  revert h
  cases stage <;> simp [Stage.isPastAes, Stage.sent]

theorem Stage.isPastAes_checked {stage : Stage} (h : stage.isPastAes = true) (answer : Bool) :
    (stage.checked answer).isPastAes = true := by
  revert h
  cases stage <;> simp [Stage.isPastAes, Stage.checked]

theorem Stage.isPastAes_failed {stage : Stage} (h : stage.isPastAes = true) (e : HandshakeError) :
    (stage.failed e).isPastAes = true := by
  revert h
  cases stage <;> simp [Stage.isPastAes, Stage.failed]

theorem Stage.isPastAes_received {ep : Endpoint (idealCrates sha256 accepts)} {stage : Stage}
    (h : stage.isPastAes = true) (body : Term) : (stage.received ep body).isPastAes = true := by
  have hreceives := receives ep stage body
  generalize stage.received ep body = next at hreceives
  cases hreceives with
  | version => cases h
  | rsa _ _ => cases h
  | aes _ _ _ => cases h
  | ehlo => rfl
  | err => rfl
  | other => exact h

theorem Sealed.move {i j : ℕ} {ep : Endpoint (idealCrates sha256 accepts)}
    (h : Sealed owned i ep net) {call : Call sha256 accepts} (hj : net.calls[j]? = some call)
    {stage : Stage} {events : List Event}
    (hpast : call.stage.isPastAes = true → stage.isPastAes = true)
    (hevents : (i = j → call.stage.isPastAes = true) → Kept owned i net.events →
      Kept owned i events) :
    Sealed owned i ep ⟨net.calls.set j ⟨call.endpoint, stage⟩, events⟩ := by
  obtain ⟨⟨stage₀, hi, hstage₀⟩, hkept⟩ := h
  by_cases hij : i = j
  · subst hij
    cases hi.symm.trans hj
    have hlt := (List.getElem?_eq_some_iff.mp hi).1
    exact ⟨⟨stage, List.getElem?_set_self hlt, hpast hstage₀⟩, hevents (fun _ => hstage₀) hkept⟩
  · refine ⟨⟨stage₀, (List.getElem?_set_ne (Ne.symm hij)).trans hi, hstage₀⟩, ?_⟩
    exact hevents (fun heq => absurd heq hij) hkept

/-- **A sealed call stays sealed**: it writes only its address now. -/
theorem Sealed.step {i : ℕ} {ep : Endpoint (idealCrates sha256 accepts)}
    (h : Sealed owned i ep net) (hstep : NetStep owned net net') : Sealed owned i ep net' := by
  cases hstep with
  | start ep' _ _ _ =>
    obtain ⟨⟨stage, hi, hstage⟩, hkept⟩ := h
    have hlt := (List.getElem?_eq_some_iff.mp hi).1
    exact ⟨⟨stage, (List.getElem?_append_left hlt).trans hi, hstage⟩, hkept⟩
  | @write j call body hj hw =>
    refine h.move hj Stage.isPastAes_sent fun hpast hkept key seed q hsent => ?_
    rcases List.mem_cons.mp hsent with heq | hsent
    · cases heq
      rcases body_of_write hw with ⟨-, hbody⟩ | ⟨-, hbody⟩ | ⟨key', nonce, hstage, -⟩ |
        ⟨-, -, -, hbody⟩
      · cases hbody
      · cases hbody
      · have hnot := hpast rfl
        rw [hstage] at hnot
        cases hnot
      · cases hbody
    · exact hkept key seed q hsent
  | @deliver j call body hj _ _ =>
    refine h.move hj (fun hpast => Stage.isPastAes_received hpast body)
      fun _ hkept key seed q hsent => ?_
    exact hkept key seed q ((List.mem_cons.mp hsent).resolve_left (by rintro ⟨⟩))
  | check hj _ answer =>
    exact h.move hj (fun hpast => Stage.isPastAes_checked hpast answer) fun _ hkept => hkept
  | fail hj e =>
    exact h.move hj (fun hpast => Stage.isPastAes_failed hpast e) fun _ hkept => hkept

theorem Sealed.of_steps {i : ℕ} {ep : Endpoint (idealCrates sha256 accepts)}
    (h : Sealed owned i ep net) (hsteps : Relation.ReflTransGen (NetStep owned) net net') :
    Sealed owned i ep net' := by
  induction hsteps with
  | refl => exact h
  | tail _ hstep ih => exact ih.step hstep

theorem Sealed.not_learnt {i : ℕ} {ep : Endpoint (idealCrates sha256 accepts)}
    (h : Sealed owned i ep net) (inv : SecrecyInv owned net) :
    ¬ Learnt owned net.events ep.draws.aesKeyPart := by
  obtain ⟨⟨stage, hi, -⟩, hkept⟩ := h
  exact Tewta.not_learnt (inv.shielded i ep (endpoint_eq_of_getElem hi) hkept)

/-- **AES key secrecy.**  When a call makes its AES key with a peer whose private key the
attacker does not own, the attacker cannot derive that key, then or later. -/
theorem aes_key_is_secret (owned : RsaPublicKey → Prop) (net net' : Net sha256 accepts)
    (hreach : net.Reachable owned) {i : ℕ} {ep : Endpoint (idealCrates sha256 accepts)}
    {theirPublicKey : RsaPublicKey} (hcall : net.calls[i]? = some ⟨ep, .recvAes theirPublicKey⟩)
    (hhonest : ¬ owned theirPublicKey) {body : Term} (hm : Makes owned net body)
    {peerId : PeerID} {aesKey : Bytes}
    (haes : Stage.received ep body (.recvAes theirPublicKey) = .sendEhlo peerId aesKey)
    (hlater : Relation.ReflTransGen (NetStep owned)
      ⟨net.calls.set i ⟨ep, .sendEhlo peerId aesKey⟩, .delivered i body :: net.events⟩ net') :
    ¬ Derives owned net' aesKey := by
  have inv : SecrecyInv owned net := SecrecyInv.init.of_steps hreach
  have hlt := (List.getElem?_eq_some_iff.mp hcall).1
  have hnext := inv.deliver hcall hm
  simp only [haes] at hnext
  have hsealed : Sealed owned i ep
      ⟨net.calls.set i ⟨ep, .sendEhlo peerId aesKey⟩, .delivered i body :: net.events⟩ := by
    refine ⟨⟨_, List.getElem?_set_self hlt, rfl⟩, fun key seed q hsent => ?_⟩
    have hsent' := (List.mem_cons.mp hsent).resolve_left (by rintro ⟨⟩)
    rw [inv.under i _ hcall key seed q hsent']
    exact hhonest
  have hinv := hnext.of_steps hlater
  obtain ⟨⟨stage, hi, -⟩, -⟩ := hsealed.of_steps hlater
  intro hderives
  obtain ⟨part, hpart, hconcat⟩ := exists_part_of_received haes
  have hours := derives_part ep.draws.aesKeyPart_length hpart hconcat hderives
  exact (hsealed.of_steps hlater).not_learnt hinv (learnt_of_derives hours
    ep.draws.aesKeyPart_length ⟨i, ep, endpoint_eq_of_getElem hi, Or.inr rfl⟩)

/-! ### Keys of the attacker's -/

theorem derives_of_parts {ourPeerId theirPeerId : PeerID} {ours theirs aesKey : Bytes}
    (haes : concatAesKeyParts ourPeerId theirPeerId ours theirs = .ok aesKey)
    (hours : Derives owned net ours) (htheirs : Derives owned net theirs) :
    Derives owned net aesKey := by
  rw [concatAesKeyParts] at haes
  split at haes
  · cases haes
    exact .append hours htheirs
  · cases haes
    exact .append htheirs hours
  · cases haes

/-- **A key shared with the attacker** is derived by it: there is a run in which an honest call
makes an AES key with a key that the attacker owns, and it reads both parts. -/
theorem exists_derived_key (owned : RsaPublicKey → Prop)
    (ep : Endpoint (idealCrates sha256 accepts)) (key : RsaPublicKey)
    (hpair : ep.identity.rsaPrivateKey = ep.identity.rsaPublicKey)
    (hhonest : ¬ owned ep.identity.rsaPublicKey) (hdraws : ep.draws.nonce ≠ ep.draws.aesKeyPart)
    (hkey : accepts key = true) (hne : ep.identity.peerId ≠ fromRsaPublicKey sha256 key)
    (hexp : ep.expectedPeerId = none) (howned : owned key) :
    ∃ (net : Net sha256 accepts) (aesKey : Bytes), net.Reachable owned ∧
      net.calls = [⟨ep, .sendEhlo (fromRsaPublicKey sha256 key) aesKey⟩] ∧
      Derives owned net aesKey := by
  obtain ⟨aesKey, haes⟩ := concatAesKeyParts_isOk hne ep.draws.aesKeyPart ep.draws.nonce
  obtain ⟨events, hreach, hrsa, hpart⟩ :=
    exists_recvAes owned ep key hpair hhonest hdraws hkey hne hexp
  have hnext := reachable_deliver hreach rfl
    (.cipher _ 0 (makes_of_rsaSent (.initAes ⟨ep.draws.nonce, ep.draws.nonce⟩) hrsa
      fun b hb => by simpa [Packet.drawn] using hb)) (received_nonce hpair haes)
  refine ⟨_, aesKey, hnext, rfl, derives_of_parts haes ?_ ?_⟩
  · exact .piece ep.draws.aesKeyPart_length fun _ => ⟨0, _, _, List.mem_cons_of_mem _ hpart,
      .cipher howned (.plain _), List.mem_cons_self⟩
  · exact .piece ep.draws.nonce_length fun _ => ⟨0, _, _, List.mem_cons_of_mem _ hrsa, .plain _,
      List.mem_singleton_self _⟩

end Invariant

/-! ### A call between two honest nodes -/

/-- An attacker that owns every key but two. -/
def ownsOthers (key : RsaPublicKey) : Prop := key ≠ smallKeyA ∧ key ≠ smallKeyB

/-- It shows a call the key of an honest node, and cannot derive the AES key that is made. -/
theorem aes_key_is_secret_callA :
    ∃ (net : Net realSha256 acceptsOdd) (peerId : PeerID) (aesKey : Bytes),
      net.Reachable ownsOthers ∧ net.calls = [⟨callA, .sendEhlo peerId aesKey⟩] ∧
      ¬ Derives ownsOthers net aesKey := by
  obtain ⟨aesKey, haes⟩ := concatAesKeyParts_isOk
    smallKeys_peerId_ne callA.draws.aesKeyPart callA.draws.nonce
  obtain ⟨events, hreach, hrsa, -⟩ := exists_recvAes ownsOthers callA smallKeyB rfl
    (fun h => h.1 rfl) (by decide) (by decide) smallKeys_peerId_ne rfl
  have hm : Makes ownsOthers ⟨[⟨callA, .recvAes smallKeyB⟩], events⟩
      (.cipher callA.identity.rsaPublicKey 0
        (.plain (.initAes ⟨callA.draws.nonce, callA.draws.nonce⟩))) :=
    .cipher _ 0 (makes_of_rsaSent _ hrsa fun b hb => by simpa [Packet.drawn] using hb)
  have hnext := reachable_deliver hreach rfl hm (received_nonce rfl haes)
  have hcall : (⟨[⟨callA, .recvAes smallKeyB⟩], events⟩ : Net realSha256 acceptsOdd).calls[0]? =
    some ⟨callA, .recvAes smallKeyB⟩ := rfl
  exact ⟨_, _, aesKey, hnext, rfl, aes_key_is_secret ownsOthers _ _ hreach hcall
    (fun h => h.2 rfl) hm (received_nonce rfl haes) .refl⟩

end Tewta
