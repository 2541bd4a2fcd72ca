import Tewta.Handshake.Dialling

/-!
# Where two nodes that dial each other stand

`Standing` says where the call on one end of a stream stands and what it takes for
granted about the other end, `Anchored` ties a node's pool to its calls, and
`DialInv` puts the two together for both nodes.  What a step of one call or of one
node leaves alone goes on standing where it stood.
-/

namespace Tewta

open Framing Transition Duplex NodeState DialState Dialling

variable {PrivateKey Seed : Type} {crates : Crates Bytes PrivateKey Seed}

/-- The Quits that the handshake and the pool send serialize and fit a frame, and
one in the clear does not decrypt. -/
structure QuitsWork (d : Dialling crates) : Prop where
  ofError : ∀ e : HandshakeError, ∃ body, crates.rawBytes (.quit e.toQuit) = .ok body ∧
    body.length < maxPacketSize
  alreadyConnected : ∃ body, crates.rawBytes (.quit alreadyConnected) = .ok body ∧
    body.length < maxPacketSize
  quitReceived : ∃ body, crates.rawBytes (.quit quitReceived) = .ok body ∧
    body.length < maxPacketSize
  clear : ∀ k (e : HandshakeError) body, crates.rawBytes (.quit e.toQuit) = .ok body →
    ∃ err, crates.decrypt (d.identity k).rsaPrivateKey body = .error err

/-! ### The invariant -/

section Invariant

variable (d : Dialling crates) (s : DialState) (k c : Side)

/-- The call has got at least to a point of its course. -/
def Reached (j : ℕ) : Prop :=
  (∃ stage : Stage, s.calls (k, c) = .running stage ∧ j ≤ stage.point ∧ stage.point ≤ 9) ∨
    s.Refused k c ∨ s.Inserted k c

/-- The call has failed and has sent its Quit. -/
def HasFailed : Prop := ∃ e, s.calls (k, c) = .failed e

/-- The read task of a connection that got into the pool, the packets from the
other end, and those to it. -/
structure Reads (stream : StreamId) : Prop where
  taken : 4 ≤ s.taken (k, c)
  arrived : s.taken (k, c) ≤ 4 + (s.packets k.other c).length
  task : ReadsPackets crates.toCodec (s.nodes k) (d.them k) stream
    ((s.packets k.other c).take (s.taken (k, c) - 4))
  written : ∀ p ∈ (s.nodes k).written stream,
    Carried crates.toCodec p ∧ ∀ q, p = .quit q → s.Refused k.other c
  closed : (s.nodes k).closed stream = true → s.Refused k.other c ∧ s.taken (k, c) = 5

/-- What a call that fails has written, and why it fails: a node has inserted the
other stream, and a call that got as far as its third frame has read a Quit. -/
structure Fails (course : Course (d.ends c)) (m : ℕ) : Prop where
  written : m = 2 ∨ m = 3
  inserted : ∃ j, s.Inserted j c.other
  failed : m = 3 → HasFailed s k.other c

/-- **Where a call stands.** -/
inductive Standing (course : Course (d.ends c)) : Prop
  | onCourse {i : ℕ} (hi : i ≤ 9) (call : s.calls (k, c) = .running (courseStage (d.ends c) k i))
      (sent : s.sent (k, c) = (course.frames k).take (sentBefore i))
      (taken : s.taken (k, c) = readBefore i)
      (aes : 7 ≤ i → Reached s k.other c 6) (ehlo : 9 ≤ i → Reached s k.other c 8)
  | failing {e : HandshakeError} {m : ℕ} (call : s.calls (k, c) = .running (.err e))
      (sent : s.sent (k, c) = (course.frames k).take m) (fails : Fails d s k c course m)
  | failed {e e' : HandshakeError} {m : ℕ} {body : Bytes} (call : s.calls (k, c) = .failed e)
      (quit : crates.rawBytes (.quit e'.toQuit) = .ok body)
      (sent : s.sent (k, c) = (course.frames k).take m ++ [body])
      (fails : Fails d s k c course m)
  | refused {stream : StreamId} (call : s.calls (k, c) = .refused stream)
      (sent : s.sent (k, c) = course.frames k)
      (written : (s.nodes k).written stream = [.quit Tewta.alreadyConnected])
      (inserted : s.Inserted k c.other) (ehlo : Reached s k.other c 8)
  | inserted {stream : StreamId} (call : s.calls (k, c) = .inserted stream)
      (sent : s.sent (k, c) = course.frames k) (ehlo : Reached s k.other c 8)
      (reads : Reads d s k c stream)

/-- A node and its calls: the streams have their numbers, every read task is that
of a call, and the entry of the other node is the connection that is not yet
removed. -/
structure Anchored : Prop where
  numbered : Numbered (s.nodes k)
  streams : ∀ c stream, (s.calls (k, c)).stream? = some stream → stream < (s.nodes k).next
  distinct : ∀ c stream, (s.calls (k, c)).stream? = some stream →
    (s.calls (k, c.other)).stream? ≠ some stream
  spawned : ∀ t, (s.nodes k).tasks t ≠ .notSpawned → ∃ c, s.calls (k, c) = .inserted t
  entry : ∀ peer, (s.nodes k).pool.connections[d.them k]? = some peer →
    ∃ c, s.calls (k, c) = .inserted peer.writeStream
  live : ∀ c stream, s.calls (k, c) = .inserted stream → (s.nodes k).aborted stream = false →
    ∃ peer, (s.nodes k).pool.connections[d.them k]? = some peer ∧ peer.writeStream = stream ∧
      peer.readStreamTask = stream
  entryLive : ∀ peer, (s.nodes k).pool.connections[d.them k]? = some peer →
    (s.nodes k).aborted peer.writeStream = false
  silent : ∀ stream, (s.nodes k).next ≤ stream →
    (s.nodes k).inbound stream = [] ∧ (s.nodes k).closed stream = false

end Invariant

/-- The invariant of two nodes that dial each other. -/
structure DialInv (d : Dialling crates) (courses : ∀ c, Course (d.ends c)) (s : DialState) :
    Prop where
  anchored : ∀ k, Anchored d s k
  standing : ∀ k c, Standing d s k c (courses c)

section Facts

variable {d : Dialling crates} {courses : ∀ c, Course (d.ends c)} {s s' : DialState}
  {k c : Side} {course : Course (d.ends c)}

theorem Reached.congr {j : ℕ} (h : Reached s k c j) (heq : s'.calls (k, c) = s.calls (k, c)) :
    Reached s' k c j := by
  rcases h with ⟨stage, hcall, hj⟩ | ⟨stream, hcall⟩ | ⟨stream, hcall⟩
  · exact Or.inl ⟨stage, heq.trans hcall, hj⟩
  · exact Or.inr (Or.inl ⟨stream, heq.trans hcall⟩)
  · exact Or.inr (Or.inr ⟨stream, heq.trans hcall⟩)

theorem packets_of_stream {stream : StreamId} (h : (s.calls (k, c)).stream? = some stream) :
    s.packets k c = (s.nodes k).written stream := by
  rw [packets, h]

theorem packets_of_no_stream (h : (s.calls (k, c)).stream? = none) : s.packets k c = [] := by
  rw [packets, h]

theorem Standing.of_reached (h : Standing d s k c course) {j : ℕ} (hr : Reached s k c j) :
    (∃ i, j ≤ i ∧ i ≤ 9 ∧ s.sent (k, c) = (course.frames k).take (sentBefore i) ∧
      s.packets k c = [] ∧ s.calls (k, c) = .running (courseStage (d.ends c) k i)) ∨
    ((s.Refused k c ∨ s.Inserted k c) ∧ s.sent (k, c) = course.frames k) := by
  cases h with
  | @onCourse i hi call sent taken aes ehlo =>
    refine Or.inl ⟨i, ?_, hi, sent, packets_of_no_stream (by rw [call]; rfl), call⟩
    rcases hr with ⟨stage, hcall, hj, -⟩ | ⟨stream, hcall⟩ | ⟨stream, hcall⟩
    · rw [call] at hcall
      cases hcall
      rw [point_courseStage _ _ hi] at hj
      exact hj
    · rw [call] at hcall
      cases hcall
    · rw [call] at hcall
      cases hcall
  | failing call sent fails =>
    rcases hr with ⟨stage, hcall, -, h9⟩ | ⟨stream, hcall⟩ | ⟨stream, hcall⟩
    · rw [call] at hcall
      cases hcall
      simp [Stage.point] at h9
    · rw [call] at hcall
      cases hcall
    · rw [call] at hcall
      cases hcall
  | failed call quit sent fails =>
    rcases hr with ⟨stage, hcall, -, -⟩ | ⟨stream, hcall⟩ | ⟨stream, hcall⟩ <;>
      (rw [call] at hcall; cases hcall)
  | refused call sent => exact Or.inr ⟨Or.inl ⟨_, call⟩, sent⟩
  | inserted call sent => exact Or.inr ⟨Or.inr ⟨_, call⟩, sent⟩

theorem Standing.sent_of_reached (h : Standing d s k c course) (hr : Reached s k c 8) :
    s.sent (k, c) = course.frames k := by
  rcases h.of_reached hr with ⟨i, h8, h9, hsent, -⟩ | ⟨-, hsent⟩
  · have hfour : sentBefore i = 4 := by interval_cases i <;> rfl
    rw [hsent, hfour, List.take_of_length_le (course.length_frames k).le]
  · exact hsent

theorem Standing.packets_of_refused (h : Standing d s k c course) (hr : s.Refused k c) :
    s.packets k c = [.quit alreadyConnected] := by
  obtain ⟨stream, hcall⟩ := hr
  cases h with
  | refused call sent written =>
    rw [packets_of_stream (by rw [call]; rfl), written]
  | onCourse hi call => rw [call] at hcall; cases hcall
  | failing call => rw [call] at hcall; cases hcall
  | failed call => rw [call] at hcall; cases hcall
  | inserted call => rw [call] at hcall; cases hcall

theorem Standing.reads (h : Standing d s k c course) {stream : StreamId}
    (hcall : s.calls (k, c) = .inserted stream) :
    Reads d s k c stream ∧ Reached s k.other c 8 ∧ s.sent (k, c) = course.frames k := by
  cases h with
  | inserted call sent ehlo reads =>
    rw [call] at hcall
    cases hcall
    exact ⟨reads, ehlo, sent⟩
  | onCourse hi call => rw [call] at hcall; cases hcall
  | failing call => rw [call] at hcall; cases hcall
  | failed call => rw [call] at hcall; cases hcall
  | refused call => rw [call] at hcall; cases hcall

theorem not_refused_of_inserted (h : s.Inserted k c) : ¬ s.Refused k c := by
  obtain ⟨stream, hcall⟩ := h
  rintro ⟨stream', hcall'⟩
  rw [hcall] at hcall'
  cases hcall'

/-- **A Quit to a connection in the pool is a refusal.** -/
theorem DialInv.refused_of_hasQuit (inv : DialInv d courses s) (hins : s.Inserted k c)
    (hquit : HasQuit (s.packets k.other c)) : s.Refused k.other c := by
  obtain ⟨q, hq⟩ := hquit
  cases hstand : inv.standing k.other c with
  | refused call => exact ⟨_, call⟩
  | inserted call sent ehlo reads =>
    rw [packets_of_stream (by rw [call]; rfl)] at hq
    have href := (reads.written _ hq).2 q rfl
    rw [Side.other_other] at href
    exact absurd href (not_refused_of_inserted hins)
  | onCourse hi call => rw [packets_of_no_stream (by rw [call]; rfl)] at hq; cases hq
  | failing call => rw [packets_of_no_stream (by rw [call]; rfl)] at hq; cases hq
  | failed call => rw [packets_of_no_stream (by rw [call]; rfl)] at hq; cases hq

theorem DialInv.refused_of_aborted (inv : DialInv d courses s) {stream : StreamId}
    (hcall : s.calls (k, c) = .inserted stream) (ha : (s.nodes k).aborted stream = true) :
    s.Refused k.other c := by
  obtain ⟨q, hq⟩ := ((inv.standing k c).reads hcall).1.task.hasQuit_of_aborted ha
  exact inv.refused_of_hasQuit ⟨stream, hcall⟩ ⟨q, List.mem_of_mem_take hq⟩

end Facts

/-! ### What another step leaves alone -/

section Transfer

variable {d : Dialling crates} {courses : ∀ c, Course (d.ends c)} {s s' : DialState}
  {k c : Side} {course : Course (d.ends c)}

theorem HasFailed.transfer {k' c' : Side} (h : HasFailed s k' c') {stage : Stage}
    (hcall : s.calls (k, c) = .running stage)
    (hcalls : ∀ e, e ≠ (k, c) → s'.calls e = s.calls e) : HasFailed s' k' c' := by
  obtain ⟨e, hfail⟩ := h
  refine ⟨e, (hcalls _ ?_).trans hfail⟩
  rintro ⟨⟩
  rw [hcall] at hfail
  cases hfail

theorem inserted_transfer {k' c' : Side} (h : s.Inserted k' c') {stage : Stage}
    (hcall : s.calls (k, c) = .running stage)
    (hcalls : ∀ e, e ≠ (k, c) → s'.calls e = s.calls e) : s'.Inserted k' c' := by
  obtain ⟨stream, hins⟩ := h
  refine ⟨stream, (hcalls _ ?_).trans hins⟩
  rintro ⟨⟩
  rw [hcall] at hins
  cases hins

theorem refused_transfer {k' c' : Side} (h : s.Refused k' c') {stage : Stage}
    (hcall : s.calls (k, c) = .running stage)
    (hcalls : ∀ e, e ≠ (k, c) → s'.calls e = s.calls e) : s'.Refused k' c' := by
  obtain ⟨stream, href⟩ := h
  refine ⟨stream, (hcalls _ ?_).trans href⟩
  rintro ⟨⟩
  rw [hcall] at href
  cases href

/-- A read task goes on as before while its node does nothing to it and the other
node at most writes more. -/
theorem Reads.transfer {stream : StreamId} (h : Reads d s k c stream)
    (htasks : (s'.nodes k).tasks stream = (s.nodes k).tasks stream)
    (hin : (s'.nodes k).inbound stream = (s.nodes k).inbound stream)
    (habort : (s'.nodes k).aborted stream = (s.nodes k).aborted stream)
    (hclosed : (s'.nodes k).closed stream = (s.nodes k).closed stream)
    (hwritten : ∀ p ∈ (s'.nodes k).written stream, p ∈ (s.nodes k).written stream ∨
      (Carried crates.toCodec p ∧ ∀ q, p = .quit q → s.Refused k.other c))
    (htaken : s'.taken (k, c) = s.taken (k, c))
    (hpackets : s.packets k.other c <+: s'.packets k.other c)
    (hrefused : s.Refused k.other c → s'.Refused k.other c) : Reads d s' k c stream := by
  obtain ⟨more, hmore⟩ := hpackets
  refine ⟨by rw [htaken]; exact h.taken, ?_, ?_, fun p hp => ?_, fun hc => ?_⟩
  · have harrived := h.arrived
    rw [htaken, ← hmore, List.length_append]
    omega
  · have harrived := h.arrived
    rw [htaken, ← hmore, List.take_append_of_le_length (by omega)]
    exact h.task.congr htasks hin habort
  · rcases hwritten p hp with hp | ⟨hcarried, hquit⟩
    · exact ⟨(h.written p hp).1, fun q hq => hrefused ((h.written p hp).2 q hq)⟩
    · exact ⟨hcarried, fun q hq => hrefused (hquit q hq)⟩
  · rw [hclosed] at hc
    exact ⟨hrefused (h.closed hc).1, htaken.trans (h.closed hc).2⟩

theorem Fails.transfer {m : ℕ} (h : Fails d s k c course m)
    (hins : ∀ j, s.Inserted j c.other → s'.Inserted j c.other)
    (hfailed : HasFailed s k.other c → HasFailed s' k.other c) : Fails d s' k c course m := by
  obtain ⟨j, hj⟩ := h.inserted
  exact ⟨h.written, ⟨j, hins j hj⟩, fun hm => hfailed (h.failed hm)⟩

theorem Standing.transfer (h : Standing d s k c course)
    (hcall : s'.calls (k, c) = s.calls (k, c)) (hsent : s'.sent (k, c) = s.sent (k, c))
    (htaken : ∀ stage, s.calls (k, c) = .running stage → s'.taken (k, c) = s.taken (k, c))
    (hreached : ∀ j, 6 ≤ j → Reached s k.other c j → Reached s' k.other c j)
    (hins : ∀ j, s.Inserted j c.other → s'.Inserted j c.other)
    (hfailed : HasFailed s k.other c → HasFailed s' k.other c)
    (hwritten : ∀ stream, s.calls (k, c) = .refused stream →
      (s'.nodes k).written stream = (s.nodes k).written stream)
    (hreads : ∀ stream, s.calls (k, c) = .inserted stream → Reads d s k c stream →
      Reads d s' k c stream) : Standing d s' k c course := by
  cases h with
  | onCourse hi call sent taken aes ehlo =>
    exact .onCourse hi (hcall.trans call) (hsent.trans sent) ((htaken _ call).trans taken)
      (fun h7 => hreached 6 (by decide) (aes h7)) (fun h9 => hreached 8 (by decide) (ehlo h9))
  | failing call sent fails =>
    exact .failing (hcall.trans call) (hsent.trans sent) (fails.transfer hins hfailed)
  | failed call quit sent fails =>
    exact .failed (hcall.trans call) quit (hsent.trans sent) (fails.transfer hins hfailed)
  | refused call sent written inserted ehlo =>
    exact .refused (hcall.trans call) (hsent.trans sent) ((hwritten _ call).trans written)
      (hins k inserted) (hreached 8 (by decide) ehlo)
  | inserted call sent ehlo reads =>
    exact .inserted (hcall.trans call) (hsent.trans sent) (hreached 8 (by decide) ehlo)
      (hreads _ call reads)

theorem Anchored.transfer (h : Anchored d s k) (hnode : s'.nodes k = s.nodes k)
    (hcalls : ∀ c, s'.calls (k, c) = s.calls (k, c) ∨
      ((s.calls (k, c)).stream? = none ∧ (s'.calls (k, c)).stream? = none)) :
    Anchored d s' k := by
  have hins : ∀ c stream, s.calls (k, c) = .inserted stream → s'.calls (k, c) = .inserted stream := by
    intro c stream hcall
    rcases hcalls c with heq | ⟨hnone, -⟩
    · exact heq.trans hcall
    · rw [hcall] at hnone
      cases hnone
  have hstream : ∀ c stream, (s'.calls (k, c)).stream? = some stream →
      (s.calls (k, c)).stream? = some stream := by
    intro c stream hsome
    rcases hcalls c with heq | ⟨-, hnone⟩
    · rw [← heq]
      exact hsome
    · rw [hnone] at hsome
      cases hsome
  have hins' : ∀ c stream, s'.calls (k, c) = .inserted stream → s.calls (k, c) = .inserted stream := by
    intro c stream hcall
    rcases hcalls c with heq | ⟨-, hnone⟩
    · exact heq.symm.trans hcall
    · rw [hcall] at hnone
      cases hnone
  refine ⟨hnode ▸ h.numbered, fun c stream hs => ?_, fun c stream hs hs' => ?_, fun t ht => ?_,
    fun peer hpeer => ?_, fun c stream hcall ha => ?_, fun peer hpeer => ?_, fun stream hle => ?_⟩
  · rw [hnode]
    exact h.streams c stream (hstream c stream hs)
  · exact h.distinct c stream (hstream c stream hs) (hstream c.other stream hs')
  · rw [hnode] at ht
    obtain ⟨c, hcall⟩ := h.spawned t ht
    exact ⟨c, hins c t hcall⟩
  · rw [hnode] at hpeer
    obtain ⟨c, hcall⟩ := h.entry peer hpeer
    exact ⟨c, hins c _ hcall⟩
  · rw [hnode] at ha ⊢
    exact h.live c stream (hins' c stream hcall) ha
  · rw [hnode] at hpeer ⊢
    exact h.entryLive peer hpeer
  · rw [hnode] at hle ⊢
    exact h.silent stream hle

theorem packets_congr (hcall : s'.calls (k, c) = s.calls (k, c)) (hnode : s'.nodes k = s.nodes k) :
    s'.packets k c = s.packets k c := by
  rw [packets, packets, hcall, hnode]

theorem DialInv.ofCall (inv : DialInv d courses s) {stage : Stage}
    (hrun : s.calls (k, c) = .running stage) (hnodes : s'.nodes = s.nodes)
    (hcalls : ∀ e, e ≠ (k, c) → s'.calls e = s.calls e)
    (hsent : ∀ e, e ≠ (k, c) → s'.sent e = s.sent e)
    (htaken : ∀ e, e ≠ (k, c) → s'.taken e = s.taken e)
    (hstream : (s'.calls (k, c)).stream? = none)
    (hreached : (∀ j, 6 ≤ j → Reached s k c j → Reached s' k c j) ∨ HasFailed s k.other c)
    (hown : Standing d s' k c (courses c)) : DialInv d courses s' := by
  have hins : ∀ j c', s.Inserted j c' → s'.Inserted j c' :=
    fun j c' h => inserted_transfer h hrun hcalls
  have hfailed : ∀ j c', HasFailed s j c' → HasFailed s' j c' :=
    fun j c' h => h.transfer hrun hcalls
  have hpackets : ∀ j c', s'.packets j c' = s.packets j c' := by
    intro j c'
    by_cases he : (j, c') = (k, c)
    · cases he
      rw [packets_of_no_stream hstream, packets_of_no_stream (by rw [hrun]; rfl)]
    · exact packets_congr (hcalls _ he) (by rw [hnodes])
  have hrefused : ∀ j c', s.Refused j c' → s'.Refused j c' :=
    fun j c' h => refused_transfer h hrun hcalls
  refine ⟨fun j => (inv.anchored j).transfer (by rw [hnodes]) fun c' => ?_, fun j c' => ?_⟩
  · by_cases he : (j, c') = (k, c)
    · cases he
      exact Or.inr ⟨by rw [hrun]; rfl, hstream⟩
    · exact Or.inl (hcalls _ he)
  · by_cases he : (j, c') = (k, c)
    · cases he
      exact hown
    have hreads : ∀ stream, s.calls (j, c') = .inserted stream → Reads d s j c' stream →
        Reads d s' j c' stream := fun stream _ hr =>
      hr.transfer (by rw [hnodes]) (by rw [hnodes]) (by rw [hnodes]) (by rw [hnodes])
        (fun p hp => Or.inl (by rwa [hnodes] at hp)) (htaken _ he) (by rw [hpackets])
        (hrefused _ _)
    have hwritten : ∀ stream, s.calls (j, c') = .refused stream →
        (s'.nodes j).written stream = (s.nodes j).written stream := fun stream _ => by rw [hnodes]
    by_cases hother : (j.other, c') = (k, c)
    · cases hother
      rcases hreached with hreached | hfail
      · exact (inv.standing j _).transfer (hcalls _ he) (hsent _ he) (fun _ _ => htaken _ he)
          hreached (fun i => hins i _) (hfailed _ _) hwritten hreads
      · rw [Side.other_other] at hfail
        obtain ⟨e, hcall⟩ := hfail
        cases inv.standing j _ with
        | failed call quit sent fails =>
          exact .failed ((hcalls _ he).trans call) quit ((hsent _ he).trans sent)
            (fails.transfer (fun i => hins i _) (hfailed _ _))
        | onCourse hi call => rw [call] at hcall; cases hcall
        | failing call => rw [call] at hcall; cases hcall
        | refused call => rw [call] at hcall; cases hcall
        | inserted call => rw [call] at hcall; cases hcall
    · exact (inv.standing j c').transfer (hcalls _ he) (hsent _ he) (fun _ _ => htaken _ he)
        (fun j _ hr => hr.congr (hcalls _ hother)) (fun i => hins i _) (hfailed _ _) hwritten hreads

end Transfer

end Tewta
