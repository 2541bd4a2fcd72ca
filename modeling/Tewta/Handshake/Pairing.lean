import Tewta.Handshake.Secrecy

/-!
# Who shares an AES key

Two calls of `handshake_raw` that have made the same AES key have taken each other's key parts,
and no third call has made it.  What a call can tell of the other one is the key that it has
encrypted its part for: if the attacker does not own that key, then the other call is one of the
node with that key, and the part was sent to it in answer to its own nonce.

The part of a call whose key the attacker does not own comes in at another call only inside of
the very body that the first one has sent (`Term.OnlyFrom`), since the attacker can neither open
that body nor make another one with the part in it.
-/

namespace Tewta

open ByteString PeerID

variable {sha256 : Bytes → Bytes32} {accepts : RsaPublicKey → Bool}

/-- The id of the other side and the AES key, from where they are known. -/
def Stage.made : Stage → Option (PeerID × Bytes)
  | .sendEhlo peerId aesKey => some (peerId, aesKey)
  | .recvEhlo peerId aesKey => some (peerId, aesKey)
  | .ok peerId _ aesKey => some (peerId, aesKey)
  | _ => none

theorem Stage.made_sent (stage : Stage) : stage.sent.made = stage.made := by
  cases stage <;> rfl

theorem Stage.made_checked (stage : Stage) (answer : Bool) :
    (stage.checked answer).made = stage.made := by
  cases stage with
  | checkPool key nonce => cases answer <;> rfl
  | _ => rfl

theorem Stage.made_failed {stage : Stage} {e : HandshakeError} {m : PeerID × Bytes}
    (h : (stage.failed e).made = some m) : stage.made = some m := by
  cases stage with
  | ok peerId addr aesKey => exact h
  | _ => cases h

section Pairing

variable (owned : RsaPublicKey → Prop)

/-- A body in which `b` is only inside of what a call has sent under a key that the attacker
does not own. -/
def Term.OnlyFrom (b : Bytes) (i : ℕ) (events : List Event) : Term → Prop
  | .plain p => b ∉ p.drawn
  | .cipher key seed t =>
    (¬ owned key ∧ Event.sent i (.cipher key seed t) ∈ events) ∨ t.OnlyFrom b i events
  | .junk _ => True

/-- Out of what a call has made its AES key, by the stage it is at. -/
def Made (i : ℕ) (ep : Endpoint (idealCrates sha256 accepts)) (events : List Event)
    (stage : Stage) : Prop :=
  ∀ peerId aesKey, stage.made = some (peerId, aesKey) → ∃ key seed part,
    fromRsaPublicKey sha256 key = peerId ∧ part.length = 16 ∧
    concatAesKeyParts ep.identity.peerId peerId ep.draws.aesKeyPart part = .ok aesKey ∧
    Event.delivered i (.cipher ep.identity.rsaPrivateKey seed
      (.plain (.initAes ⟨part, ep.draws.nonce⟩))) ∈ events ∧
    ∀ key' seed' q, Event.sent i (.cipher key' seed' (.plain (.initAes q))) ∈ events → key' = key

structure PairingInv (net : Net sha256 accepts) : Prop extends SecrecyInv owned net where
  made : ∀ i call, net.calls[i]? = some call → Made i call.endpoint net.events call.stage
  origin : ∀ i ep, net.endpoint i = some ep → Kept owned i net.events →
    ∀ e ∈ net.events, e.body.OnlyFrom owned ep.draws.aesKeyPart i net.events

end Pairing

variable {owned : RsaPublicKey → Prop} {net net' : Net sha256 accepts}

/-! ### Where a key part is -/

theorem Term.OnlyFrom.of_drawn {b : Bytes} {i : ℕ} {events : List Event} {t : Term}
    (h : b ∉ t.drawn) : t.OnlyFrom owned b i events := by
  induction t with
  | plain p => exact h
  | cipher key seed t ih => exact Or.inr (ih h)
  | junk bytes => trivial

theorem Term.OnlyFrom.cons {b : Bytes} {i : ℕ} {events : List Event} {t : Term}
    (h : t.OnlyFrom owned b i events) (e : Event) : t.OnlyFrom owned b i (e :: events) := by
  induction t with
  | plain p => exact h
  | cipher key seed t ih =>
    rcases h with ⟨hnot, hsent⟩ | h
    · exact Or.inl ⟨hnot, List.mem_cons_of_mem e hsent⟩
    · exact Or.inr (ih h)
  | junk bytes => trivial

/-- **The attacker moves a key part only with the body it was sent in.** -/
theorem Makes.onlyFrom {b : Bytes} {i : ℕ} {t : Term} (hm : Makes owned net t)
    (hdrawn : net.Drawn b) (hshields : ∀ e ∈ net.events, e.body.Shields owned b)
    (h : ∀ e ∈ net.events, e.body.OnlyFrom owned b i net.events) :
    t.OnlyFrom owned b i net.events := by
  induction hm with
  | seen hsent => exact h _ hsent
  | opened _ hk ih => exact ih.resolve_left fun hnot => hnot.1 hk
  | plain p hp => exact fun hb => not_learnt hshields (hp b hb hdrawn)
  | cipher key seed _ ih => exact Or.inr ih
  | junk bytes => trivial

/-! ### What an AES key is made of -/

section Made

variable {i : ℕ} {ep : Endpoint (idealCrates sha256 accepts)} {events : List Event}

theorem Made.cons {stage : Stage} (h : Made i ep events stage) {e : Event}
    (he : stage.made ≠ none →
      ∀ key seed q, e ≠ .sent i (.cipher key seed (.plain (.initAes q)))) :
    Made i ep (e :: events) stage := by
  intro peerId aesKey hmade
  obtain ⟨key, seed, part, hkey, hpart, haes, hin, hunder⟩ := h peerId aesKey hmade
  refine ⟨key, seed, part, hkey, hpart, haes, List.mem_cons_of_mem e hin,
    fun key' seed' q hsent => hunder key' seed' q ?_⟩
  refine (List.mem_cons.mp hsent).resolve_left fun heq => ?_
  exact he (by rw [hmade]; exact Option.some_ne_none _) key' seed' q heq.symm

theorem Made.of_made_eq {stage stage' : Stage} (h : Made i ep events stage)
    (heq : ∀ m, stage'.made = some m → stage.made = some m) : Made i ep events stage' :=
  fun peerId aesKey hmade => h peerId aesKey (heq _ hmade)

theorem Made.write {stage : Stage} {body : Term} (h : Made i ep events stage)
    (hw : stage.awaits ep = .write (.ok body)) :
    Made i ep (.sent i body :: events) stage.sent := by
  refine Made.of_made_eq (h.cons fun hmade key seed q heq => ?_) fun m hm =>
    stage.made_sent.symm.trans hm
  rcases body_of_write hw with ⟨rfl, -⟩ | ⟨rfl, -⟩ | ⟨key', nonce, rfl, -⟩ | ⟨-, -, -, hbody⟩
  · exact hmade rfl
  · exact hmade rfl
  · exact hmade rfl
  · rw [hbody] at heq
    cases heq

theorem Made.read {stage : Stage} {body : Term} (h : Made i ep events stage)
    (hunder : SentUnder i events stage) :
    Made i ep (.delivered i body :: events) (stage.received ep body) := by
  have hreceives := receives ep stage body
  generalize stage.received ep body = next at hreceives
  cases hreceives with
  | version => rintro _ _ ⟨⟩
  | rsa _ _ => rintro _ _ ⟨⟩
  | @aes key seed q aesKey hlen hnonce haes =>
    rintro _ _ ⟨⟩
    refine ⟨key, seed, q.aesKeyPart, rfl, hlen, haes, ?_, fun key' seed' q' hsent => ?_⟩
    · rw [← hnonce]
      exact List.mem_cons_self
    · exact hunder key' seed' q' ((List.mem_cons.mp hsent).resolve_left (by rintro ⟨⟩))
  | ehlo => exact (h.cons fun _ _ _ _ => by rintro ⟨⟩).of_made_eq fun _ hm => hm
  | err => rintro _ _ ⟨⟩
  | other => exact h.cons fun _ _ _ _ => by rintro ⟨⟩

end Made

/-! ### The invariant -/

namespace PairingInv

theorem init : PairingInv owned (⟨[], []⟩ : Net sha256 accepts) where
  toSecrecyInv := SecrecyInv.init
  made i call hi := by simp at hi
  origin i ep hi := by simp [Net.endpoint] at hi

theorem move (inv : PairingInv owned net) {i : ℕ} {call : Call sha256 accepts}
    (hi : net.calls[i]? = some call) {stage : Stage}
    (hinv : SecrecyInv owned ⟨net.calls.set i ⟨call.endpoint, stage⟩, net.events⟩)
    (hmade : ∀ m, stage.made = some m → call.stage.made = some m) :
    PairingInv owned ⟨net.calls.set i ⟨call.endpoint, stage⟩, net.events⟩ := by
  have hend := endpoint_set hi stage net.events
  refine ⟨hinv, fun j c hj => ?_, ?_⟩
  · rcases getElem?_set_cases hj with ⟨rfl, rfl⟩ | hj
    · exact (inv.made j call hi).of_made_eq hmade
    · exact inv.made j c hj
  · rw [hend]
    exact inv.origin

theorem event (inv : PairingInv owned net) {i : ℕ} {call : Call sha256 accepts}
    (hi : net.calls[i]? = some call) {stage : Stage} {e : Event}
    (hinv : SecrecyInv owned ⟨net.calls.set i ⟨call.endpoint, stage⟩, e :: net.events⟩)
    (hown : ∀ j body, e = .sent j body → j = i)
    (hmade : Made i call.endpoint (e :: net.events) stage)
    (horigin : ∀ j ep, net.endpoint j = some ep → Kept owned j (e :: net.events) →
      e.body.OnlyFrom owned ep.draws.aesKeyPart j (e :: net.events)) :
    PairingInv owned ⟨net.calls.set i ⟨call.endpoint, stage⟩, e :: net.events⟩ := by
  have hend := endpoint_set hi stage (e :: net.events)
  have hlt := (List.getElem?_eq_some_iff.mp hi).1
  refine ⟨hinv, fun j c hj => ?_, fun j ep hj hkept e' he' => ?_⟩
  · by_cases hij : i = j
    · subst hij
      cases (List.getElem?_set_self hlt).symm.trans hj
      exact hmade
    · have hj' := (List.getElem?_set_ne hij).symm.trans hj
      refine (inv.made j c hj').cons fun _ key seed q heq => hij ?_
      exact (hown j _ heq).symm
  · rw [hend] at hj
    rcases List.mem_cons.mp he' with rfl | he'
    · exact horigin j ep hj hkept
    · exact (inv.origin j ep hj hkept.of_cons e' he').cons e

theorem write (inv : PairingInv owned net) {i : ℕ} {call : Call sha256 accepts} {body : Term}
    (hi : net.calls[i]? = some call) (hw : call.stage.awaits call.endpoint = .write (.ok body)) :
    PairingInv owned
      ⟨net.calls.set i ⟨call.endpoint, call.stage.sent⟩, .sent i body :: net.events⟩ := by
  have hend := endpoint_eq_of_getElem hi
  refine inv.event hi (inv.toSecrecyInv.write hi hw) (fun j body' heq => by cases heq; rfl)
    ((inv.made i call hi).write hw) fun j ep hj hkept => ?_
  show body.OnlyFrom owned ep.draws.aesKeyPart j _
  rcases body_of_write hw with ⟨-, rfl⟩ | ⟨-, rfl⟩ | ⟨key, nonce, hstage, rfl⟩ | ⟨-, -, -, rfl⟩
  · exact List.not_mem_nil
  · intro hb
    exact inv.nonce_ne_part i j call.endpoint ep hend hj (List.mem_singleton.mp hb).symm
  · by_cases hij : i = j
    · -- its own key part, in the body that it sends
      subst hij
      exact Or.inl ⟨hkept key _ _ List.mem_cons_self, List.mem_cons_self⟩
    · refine Or.inr fun hb => ?_
      rcases List.mem_cons.mp hb with hpart | hb
      · exact hij (inv.part_inj i j call.endpoint ep hend hj hpart.symm)
      · -- the nonce was in a packet that shields the key part
        have hhappened := inv.happened i call hi
        rw [hstage] at hhappened
        obtain ⟨-, -, r, hr, hnonce, -⟩ := hhappened
        apply inv.shielded j ep hj hkept.of_cons _ hr
        rw [List.mem_singleton.mp hb, ← hnonce]
        exact List.mem_singleton_self _
  · exact List.not_mem_nil

theorem deliver (inv : PairingInv owned net) {i : ℕ} {call : Call sha256 accepts} {body : Term}
    (hi : net.calls[i]? = some call) (hm : Makes owned net body) :
    PairingInv owned ⟨net.calls.set i ⟨call.endpoint, call.stage.received call.endpoint body⟩,
      .delivered i body :: net.events⟩ := by
  refine inv.event hi (inv.toSecrecyInv.deliver hi hm) (fun j body' heq => by cases heq)
    ((inv.made i call hi).read (inv.under i call hi)) fun j ep hj hkept => ?_
  exact (hm.onlyFrom ⟨j, ep, hj, Or.inr rfl⟩ (inv.shielded j ep hj hkept.of_cons)
    (inv.origin j ep hj hkept.of_cons)).cons _

theorem start (inv : PairingInv owned net) {ep : Endpoint (idealCrates sha256 accepts)}
    (hpair : ep.identity.rsaPrivateKey = ep.identity.rsaPublicKey) (hf : net.Fresh ep.draws) :
    PairingInv owned ⟨net.calls ++ [⟨ep, .sendVersion⟩], net.events⟩ := by
  refine ⟨inv.toSecrecyInv.start hpair hf, fun j c hj => ?_, fun j ep' hj hkept e he => ?_⟩
  · rcases Nat.lt_or_ge j net.calls.length with hlt | hge
    · exact inv.made j c ((List.getElem?_append_left hlt).symm.trans hj)
    · have hj' := (List.getElem?_append_right hge).symm.trans hj
      rw [List.getElem?_singleton] at hj'
      split at hj'
      · cases hj'
        rintro _ _ ⟨⟩
      · cases hj'
  · rcases endpoint_append hj with hj | ⟨-, rfl⟩
    · exact inv.origin j ep' hj hkept e he
    · exact .of_drawn (hf.part_unseen e he)

theorem step (inv : PairingInv owned net) (h : NetStep owned net net') : PairingInv owned net' := by
  have hinv := inv.toSecrecyInv.step h
  cases h with
  | start ep hpair _ hf => exact inv.start hpair hf
  | write hi hw => exact inv.write hi hw
  | deliver hi _ hm => exact inv.deliver hi hm
  | @check i call peerId hi _ answer =>
    exact inv.move hi hinv fun m hm => (call.stage.made_checked answer).symm.trans hm
  | fail hi e => exact inv.move hi hinv fun m hm => Stage.made_failed hm

theorem of_reachable (h : net.Reachable owned) : PairingInv owned net := by
  induction h with
  | refl => exact init
  | tail _ hstep ih => exact ih.step hstep

end PairingInv

/-! ### Two calls with one key -/

theorem eq_append_of_concat {ourPeerId theirPeerId : PeerID} {ours theirs aesKey : Bytes}
    (haes : concatAesKeyParts ourPeerId theirPeerId ours theirs = .ok aesKey) :
    aesKey = ours ++ theirs ∨ aesKey = theirs ++ ours := by
  rw [concatAesKeyParts] at haes
  split at haes
  · cases haes
    exact Or.inl rfl
  · cases haes
    exact Or.inr rfl
  · cases haes

/-- Calls with different key parts and one AES key have each other's. -/
theorem parts_crossed {a b a' b' : PeerID} {ours theirs ours' theirs' aesKey : Bytes}
    (haes : concatAesKeyParts a b ours theirs = .ok aesKey)
    (haes' : concatAesKeyParts a' b' ours' theirs' = .ok aesKey)
    (hours : ours.length = 16) (htheirs : theirs.length = 16) (hours' : ours'.length = 16)
    (htheirs' : theirs'.length = 16) (hne : ours ≠ ours') : ours = theirs' ∧ theirs = ours' := by
  have hsplit : ∀ {x y x' y' : Bytes}, x.length = 16 → x'.length = 16 → x ++ y = x' ++ y' →
      x = x' ∧ y = y' := fun hx hx' heq => List.append_inj heq (hx.trans hx'.symm)
  rcases eq_append_of_concat haes with rfl | rfl <;>
    rcases eq_append_of_concat haes' with heq | heq
  · exact absurd (hsplit hours hours' heq).1 hne
  · exact hsplit hours htheirs' heq
  · exact (hsplit htheirs hours' heq).symm
  · exact absurd (hsplit htheirs htheirs' heq).2 hne

/-- A call has made an AES key, with a peer. -/
def Net.HasKey (net : Net sha256 accepts) (i : ℕ) (ep : Endpoint (idealCrates sha256 accepts))
    (peerId : PeerID) (aesKey : Bytes) : Prop :=
  ∃ stage, net.calls[i]? = some ⟨ep, stage⟩ ∧ stage.made = some (peerId, aesKey)

section TwoCalls

variable {i j : ℕ} {ep ep' : Endpoint (idealCrates sha256 accepts)} {peerId peerId' : PeerID}
  {aesKey : Bytes}

/-- The part that another call with the same key has accepted is ours. -/
theorem PairingInv.delivered_part (inv : PairingInv owned net) (hij : i ≠ j)
    (hi : net.HasKey i ep peerId aesKey) (hj : net.HasKey j ep' peerId' aesKey) :
    ∃ seed, Event.delivered j (.cipher ep'.identity.rsaPrivateKey seed
      (.plain (.initAes ⟨ep.draws.aesKeyPart, ep'.draws.nonce⟩))) ∈ net.events := by
  obtain ⟨stage, hcall, hmade⟩ := hi
  obtain ⟨stage', hcall', hmade'⟩ := hj
  obtain ⟨-, -, part, -, hpart, haes, -, -⟩ := inv.made i _ hcall peerId aesKey hmade
  obtain ⟨-, seed, part', -, hpart', haes', hin, -⟩ := inv.made j _ hcall' peerId' aesKey hmade'
  have hne : ep.draws.aesKeyPart ≠ ep'.draws.aesKeyPart := fun heq =>
    hij (inv.part_inj i j ep ep' (endpoint_eq_of_getElem hcall) (endpoint_eq_of_getElem hcall') heq)
  obtain ⟨rfl, -⟩ := parts_crossed haes haes' ep.draws.aesKeyPart_length hpart
    ep'.draws.aesKeyPart_length hpart' hne
  exact ⟨seed, hin⟩

/-- **A call knows whom it shares its key with**, if the attacker does not own the key that it
was shown. -/
theorem PairingInv.peer_of_kept (inv : PairingInv owned net) (hij : i ≠ j)
    (hi : net.HasKey i ep peerId aesKey) (hj : net.HasKey j ep' peerId' aesKey)
    (hkept : Kept owned i net.events) :
    peerId = ep'.identity.peerId ∧ ∃ seed, Event.sent i (.cipher ep'.identity.rsaPublicKey seed
      (.plain (.initAes ⟨ep.draws.aesKeyPart, ep'.draws.nonce⟩))) ∈ net.events := by
  obtain ⟨seed, hdelivered⟩ := inv.delivered_part hij hi hj
  obtain ⟨stage, hcall, hmade⟩ := hi
  obtain ⟨stage', hcall', -⟩ := hj
  -- the part has come in the body that the call has sent
  have hsent : Event.sent i (.cipher ep'.identity.rsaPrivateKey seed
      (.plain (.initAes ⟨ep.draws.aesKeyPart, ep'.draws.nonce⟩))) ∈ net.events := by
    rcases inv.origin i ep (endpoint_eq_of_getElem hcall) hkept _ hdelivered with ⟨-, hsent⟩ | hnot
    · exact hsent
    · exact absurd List.mem_cons_self hnot
  rw [inv.pair j ep' (endpoint_eq_of_getElem hcall')] at hsent
  obtain ⟨key, -, -, hkey, -, -, -, hunder⟩ := inv.made i _ hcall peerId aesKey hmade
  refine ⟨?_, seed, hsent⟩
  rw [← hkey, ← hunder _ _ _ hsent, ep'.identity.peerId_eq]
  rfl

/-- **An AES key is shared by two calls at most**, and a call that has encrypted its key part
for a key that the attacker does not own returns the id of the node that the other call is on,
whose public key it has answered with the nonce of that very call. -/
theorem aes_key_identifies_peer (owned : RsaPublicKey → Prop) (net : Net sha256 accepts)
    (hreach : net.Reachable owned) (hij : i ≠ j) (hi : net.HasKey i ep peerId aesKey)
    (hj : net.HasKey j ep' peerId' aesKey) :
    (∀ k ep'' peerId'', net.HasKey k ep'' peerId'' aesKey → k = i ∨ k = j) ∧
      (Kept owned i net.events → peerId = ep'.identity.peerId ∧
        ∃ seed, Event.sent i (.cipher ep'.identity.rsaPublicKey seed
          (.plain (.initAes ⟨ep.draws.aesKeyPart, ep'.draws.nonce⟩))) ∈ net.events) ∧
      (Kept owned j net.events → peerId' = ep.identity.peerId ∧
        ∃ seed, Event.sent j (.cipher ep.identity.rsaPublicKey seed
          (.plain (.initAes ⟨ep'.draws.aesKeyPart, ep.draws.nonce⟩))) ∈ net.events) := by
  have inv := PairingInv.of_reachable hreach
  refine ⟨fun k ep'' peerId'' hk => ?_, inv.peer_of_kept hij hi hj,
    inv.peer_of_kept (Ne.symm hij) hj hi⟩
  -- a third call would have accepted the parts of both
  by_contra hthird
  obtain ⟨hki, hkj⟩ := not_or.mp hthird
  obtain ⟨stage, hcall, hmade⟩ := hi
  obtain ⟨stage', hcall', hmade'⟩ := hj
  obtain ⟨stage'', hcall'', hmade''⟩ := hk
  obtain ⟨-, -, part, -, hpart, haes, -, -⟩ := inv.made i _ hcall peerId aesKey hmade
  obtain ⟨-, -, part', -, hpart', haes', -, -⟩ := inv.made j _ hcall' peerId' aesKey hmade'
  obtain ⟨-, -, part'', -, hpart'', haes'', -, -⟩ := inv.made k _ hcall'' peerId'' aesKey hmade''
  have hend := endpoint_eq_of_getElem hcall
  have hend' := endpoint_eq_of_getElem hcall'
  have hend'' := endpoint_eq_of_getElem hcall''
  obtain ⟨hours, -⟩ := parts_crossed haes haes'' ep.draws.aesKeyPart_length hpart
    ep''.draws.aesKeyPart_length hpart'' fun heq => hki (inv.part_inj i k _ _ hend hend'' heq).symm
  obtain ⟨hours', -⟩ := parts_crossed haes' haes'' ep'.draws.aesKeyPart_length hpart'
    ep''.draws.aesKeyPart_length hpart'' fun heq => hkj (inv.part_inj j k _ _ hend' hend'' heq).symm
  exact hij (inv.part_inj i j _ _ hend hend' (hours.trans hours'.symm))

end TwoCalls

/-! ### Two honest calls -/

section Exchange

variable {a b : Endpoint (idealCrates sha256 accepts)}

theorem received_rsaPacket (hkey : accepts b.identity.rsaPublicKey = true)
    (hne : a.identity.peerId ≠ fromRsaPublicKey sha256 b.identity.rsaPublicKey)
    (hexp : a.expectedPeerId = none) : Stage.received a (.plain b.rsaPacket) .recvRsa =
      .checkPool b.identity.rsaPublicKey b.draws.nonce := by
  simp only [Stage.received, decoded, idealCrates, Endpoint.rsaPacket, receivedRsa, ofLe_leMin,
    b.draws.nonce_length, hkey, ne_eq, not_true_eq_false, if_false, if_true, checkIdentity,
    if_neg hne, hexp]

theorem received_aesPacket (hpair : a.identity.rsaPrivateKey = a.identity.rsaPublicKey)
    {aesKey : Bytes} (haes : concatAesKeyParts a.identity.peerId
      (fromRsaPublicKey sha256 b.identity.rsaPublicKey) a.draws.aesKeyPart b.draws.aesKeyPart =
        .ok aesKey) :
    Stage.received a (.cipher a.identity.rsaPublicKey b.draws.seed
      (.plain (b.aesPacket a.draws.nonce))) (.recvAes b.identity.rsaPublicKey) =
      .sendEhlo (fromRsaPublicKey sha256 b.identity.rsaPublicKey) aesKey := by
  simp only [Stage.received, decoded, idealCrates, hpair, if_true, Endpoint.aesPacket, receivedAes,
    b.draws.aesKeyPart_length, ne_eq, not_true_eq_false, if_false, haes]

end Exchange

namespace Net.Reachable

variable {i : ℕ} {call : Call sha256 accepts} {stage : Stage} {body : Term}

theorem write (h : net.Reachable owned) (hi : net.calls[i]? = some call)
    (hw : call.stage.awaits call.endpoint = .write (.ok body)) (hs : call.stage.sent = stage) :
    Net.Reachable owned ⟨net.calls.set i ⟨call.endpoint, stage⟩, .sent i body :: net.events⟩ := by
  subst hs
  exact h.tail (.write hi hw)

theorem deliver (h : net.Reachable owned) (hi : net.calls[i]? = some call)
    (hf : call.stage.awaits call.endpoint = .frame) (hm : Makes owned net body)
    (hs : call.stage.received call.endpoint body = stage) : Net.Reachable owned
      ⟨net.calls.set i ⟨call.endpoint, stage⟩, .delivered i body :: net.events⟩ := by
  subst hs
  exact h.tail (.deliver hi hf hm)

theorem check (h : net.Reachable owned) {peerId : PeerID} (hi : net.calls[i]? = some call)
    (hc : call.stage.awaits call.endpoint = .contains peerId)
    (hs : call.stage.checked false = stage) :
    Net.Reachable owned ⟨net.calls.set i ⟨call.endpoint, stage⟩, net.events⟩ := by
  subst hs
  exact h.tail (.check hi hc false)

end Net.Reachable

/-- A call on the node of the other small key. -/
def callB : Endpoint (idealCrates realSha256 acceptsOdd) where
  identity := nodeOf smallKeyB "local-1"
  expectedPeerId := none
  draws :=
    { nonce := List.replicate 16 3
      aesKeyPart := List.replicate 16 4
      seed := 1
      nonce_length := List.length_replicate
      aesKeyPart_length := List.length_replicate }

theorem concatAesKeyParts_swap {ourPeerId theirPeerId : PeerID} {ours theirs aesKey : Bytes}
    (haes : concatAesKeyParts ourPeerId theirPeerId ours theirs = .ok aesKey) :
    concatAesKeyParts theirPeerId ourPeerId theirs ours = .ok aesKey := by
  have hswap : compare theirPeerId ourPeerId = (compare ourPeerId theirPeerId).swap :=
    Std.OrientedOrd.eq_swap
  rw [concatAesKeyParts] at haes ⊢
  rw [hswap]
  cases hc : compare ourPeerId theirPeerId with
  | lt =>
    rw [hc] at haes
    exact haes
  | eq =>
    rw [hc] at haes
    cases haes
  | gt =>
    rw [hc] at haes
    exact haes

/-- The frames of two calls are handed on as they are. -/
theorem exists_exchange : ∃ events aesKey,
    Net.Reachable ownsOthers (⟨[⟨callA, .sendEhlo callB.identity.peerId aesKey⟩,
      ⟨callB, .sendEhlo callA.identity.peerId aesKey⟩], events⟩ : Net realSha256 acceptsOdd) ∧
      Kept ownsOthers 0 events ∧ Kept ownsOthers 1 events := by
  obtain ⟨aesKey, haes⟩ := concatAesKeyParts_isOk smallKeys_peerId_ne
    callA.draws.aesKeyPart callB.draws.aesKeyPart
  have hstarted : Net.Reachable ownsOthers
      (⟨[⟨callA, .sendVersion⟩, ⟨callB, .sendVersion⟩], []⟩ : Net realSha256 acceptsOdd) := by
    have hdrawn : ∀ b, Net.Drawn (⟨[⟨callA, .sendVersion⟩], []⟩ : Net realSha256 acceptsOdd) b →
        b = callA.draws.nonce ∨ b = callA.draws.aesKeyPart := by
      rintro b ⟨_ | i, ep, hi, hb⟩
      · cases hi
        exact hb
      · cases hi
    refine (reachable_start rfl (fun h => h.1 rfl) (by decide)).tail
      (.start callB rfl (fun h => h.2 rfl) ⟨by decide, fun h => ?_, fun h => ?_, by simp, by simp⟩)
    · exact absurd (hdrawn _ h) (by decide)
    · exact absurd (hdrawn _ h) (by decide)
  have hversion : ∀ net : Net realSha256 acceptsOdd,
      Makes ownsOthers net (.plain versionPacket) := fun _ => .plain _ fun b hb => by cases hb
  -- both send their version, and both their public key
  have h₁ : Net.Reachable ownsOthers ⟨[⟨callA, .recvVersion⟩, ⟨callB, .recvVersion⟩], _⟩ :=
    (hstarted.write (i := 0) rfl rfl rfl).write (i := 1) rfl rfl rfl
  have h₂ : Net.Reachable ownsOthers ⟨[⟨callA, .sendRsa⟩, ⟨callB, .sendRsa⟩], _⟩ :=
    (h₁.deliver (i := 0) rfl rfl (hversion _) receivedVersion_versionPacket).deliver (i := 1)
      rfl rfl (hversion _) receivedVersion_versionPacket
  have h₃ : Net.Reachable ownsOthers ⟨[⟨callA, .recvRsa⟩, ⟨callB, .recvRsa⟩], _⟩ :=
    (h₂.write (i := 0) rfl rfl rfl).write (i := 1) rfl rfl rfl
  have h₄ : Net.Reachable ownsOthers ⟨[⟨callA, .checkPool smallKeyB callB.draws.nonce⟩,
      ⟨callB, .checkPool smallKeyA callA.draws.nonce⟩], _⟩ :=
    (h₃.deliver (i := 0) rfl rfl (.seen (i := 1) List.mem_cons_self)
      (received_rsaPacket (a := callA) (b := callB) (by decide) smallKeys_peerId_ne rfl)).deliver
        (i := 1) rfl rfl
        (.seen (i := 0) (List.mem_cons_of_mem _ (List.mem_cons_of_mem _ List.mem_cons_self)))
        (received_rsaPacket (a := callB) (b := callA) (by decide) smallKeys_peerId_ne.symm rfl)
  -- the key parts are encrypted
  have h₅ : Net.Reachable ownsOthers ⟨[⟨callA, .recvAes smallKeyB⟩,
      ⟨callB, .recvAes smallKeyA⟩], _⟩ :=
    (((h₄.check (i := 0) rfl rfl rfl).check (i := 1) rfl rfl rfl).write (i := 0) rfl rfl rfl).write
      (i := 1) rfl rfl rfl
  have h₆ : Net.Reachable ownsOthers ⟨[⟨callA, .sendEhlo callB.identity.peerId aesKey⟩,
      ⟨callB, .sendEhlo callA.identity.peerId aesKey⟩], _⟩ :=
    (h₅.deliver (i := 0) rfl rfl (.seen (i := 1) List.mem_cons_self)
      (received_aesPacket (a := callA) (b := callB) rfl haes)).deliver (i := 1) rfl rfl
        (.seen (i := 0) (List.mem_cons_of_mem _ (List.mem_cons_of_mem _ List.mem_cons_self)))
        (received_aesPacket (a := callB) (b := callA) rfl (concatAesKeyParts_swap haes))
  refine ⟨_, aesKey, h₆, fun key seed q hsent => ?_, fun key seed q hsent => ?_⟩
  · obtain ⟨rfl, -⟩ : key = smallKeyB ∧ _ := by simpa using hsent
    exact fun howned => howned.2 rfl
  · obtain ⟨rfl, -⟩ : key = smallKeyA ∧ _ := by simpa using hsent
    exact fun howned => howned.1 rfl

/-- The two calls share their key with each other. -/
theorem aes_key_identifies_peer_pair :
    ∃ (net : Net realSha256 acceptsOdd) (aesKey : Bytes), net.Reachable ownsOthers ∧
      net.HasKey 0 callA callB.identity.peerId aesKey ∧
      net.HasKey 1 callB callA.identity.peerId aesKey ∧
      (∀ k ep peerId, net.HasKey k ep peerId aesKey → k = 0 ∨ k = 1) ∧
      ∃ seed, Event.sent 0 (.cipher smallKeyB seed
        (.plain (.initAes ⟨callA.draws.aesKeyPart, callB.draws.nonce⟩))) ∈ net.events := by
  obtain ⟨events, aesKey, hreach, hkept, -⟩ := exists_exchange
  have hA : Net.HasKey ⟨[⟨callA, .sendEhlo callB.identity.peerId aesKey⟩,
      ⟨callB, .sendEhlo callA.identity.peerId aesKey⟩], events⟩ 0 callA callB.identity.peerId
      aesKey := ⟨_, rfl, rfl⟩
  have hB : Net.HasKey ⟨[⟨callA, .sendEhlo callB.identity.peerId aesKey⟩,
      ⟨callB, .sendEhlo callA.identity.peerId aesKey⟩], events⟩ 1 callB callA.identity.peerId
      aesKey := ⟨_, rfl, rfl⟩
  obtain ⟨honly, hpeer, -⟩ :=
    aes_key_identifies_peer ownsOthers _ hreach zero_ne_one hA hB
  exact ⟨_, aesKey, hreach, hA, hB, honly, (hpeer hkept).2⟩

end Tewta
