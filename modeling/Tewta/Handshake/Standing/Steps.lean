import Tewta.Handshake.Standing

/-!
# The steps of two nodes that dial each other

`DialInv.step`: every step of the two nodes keeps the invariant.  A call of
`handshake` goes on by one point of its course, fails because its node has the
other one already, or comes to its end in the pool; a node moves when a read task
is polled, a frame arrives or another task sends something.
-/

namespace Tewta

open Framing Transition Duplex NodeState DialState Dialling

variable {PrivateKey Seed : Type} {crates : Crates Bytes PrivateKey Seed}

/-! ### Calls of `handshake` -/

section Handshake

variable {d : Dialling crates} {courses : ∀ c, Course (d.ends c)} {s s' : DialState}
  {k c : Side} {i : ℕ} {body : Bytes}

theorem readBefore_lt_four (h : IsRecv i) : readBefore i < 4 := by
  rcases h with rfl | rfl | rfl | rfl <;> decide

theorem take_append_left {α : Type*} {l m : List α} {j n : ℕ} {a : α} (hj : j < n)
    (h : (l.take n ++ m)[j]? = some a) (hl : j < l.length) : l[j]? = some a := by
  rw [List.getElem?_append_left (by rw [List.length_take]; omega), List.getElem?_take_of_lt hj] at h
  exact h

/-- **What a call reads on its course** is the next frame of the other end's course,
or the Quit of an other end that has failed, where the third frame should be. -/
theorem DialInv.frame_read (inv : DialInv d courses s) (hi : IsRecv i)
    (hcall : s.calls (k, c) = .running (courseStage (d.ends c) k i))
    (hbody : (s.frames crates.toCodec k.other c)[readBefore i]? = some body) :
    (((courses c).frames k.other)[readBefore i]? = some body ∧
      (i = 6 → Reached s k.other c 6) ∧ (i = 8 → Reached s k.other c 8)) ∨
    (i = 6 ∧ HasFailed s k.other c ∧ (∃ e : HandshakeError, crates.rawBytes (.quit e.toQuit) = .ok body) ∧
      ∃ j, s.Inserted j c.other) := by
  have hfour := readBefore_lt_four hi
  have hlen := (courses c).length_frames k.other
  have hnot : ¬ HasFailed s k.other.other c := by
    rw [Side.other_other]
    rintro ⟨e, hfail⟩
    rw [hcall] at hfail
    cases hfail
  rw [frames] at hbody
  cases inv.standing k.other c with
  | @onCourse i' hi' call sent taken aes ehlo =>
    rw [packets_of_no_stream (by rw [call]; rfl), sent, List.map_nil] at hbody
    have hlt : readBefore i < sentBefore i' := by
      by_contra hge
      rw [List.append_nil, List.getElem?_eq_none (by rw [List.length_take]; omega)] at hbody
      cases hbody
    have hpoint := point_courseStage (d.ends c) k.other hi'
    refine Or.inl ⟨take_append_left hlt hbody (by omega), fun h6 => ?_, fun h8 => ?_⟩
    · subst h6
      refine Or.inl ⟨_, call, ?_, by omega⟩
      rw [hpoint]
      interval_cases i' <;> first | omega | (simp [readBefore, sentBefore] at hlt)
    · subst h8
      refine Or.inl ⟨_, call, ?_, by omega⟩
      rw [hpoint]
      interval_cases i' <;> first | omega | (simp [readBefore, sentBefore] at hlt)
  | @failing e m call sent fails =>
    rw [packets_of_no_stream (by rw [call]; rfl), sent, List.map_nil] at hbody
    have hlt : readBefore i < m := by
      by_contra hge
      rw [List.append_nil, List.getElem?_eq_none (by rw [List.length_take]; omega)] at hbody
      cases hbody
    have hm : m = 2 := by
      rcases fails.written with hm | hm
      · exact hm
      · exact absurd (fails.failed hm) hnot
    subst hm
    refine Or.inl ⟨take_append_left hlt hbody (by omega), ?_, ?_⟩ <;>
      (rintro rfl; simp [readBefore] at hlt)
  | @failed e e' m quitBody call quit sent fails =>
    have hm : m = 2 := by
      rcases fails.written with hm | hm
      · exact hm
      · exact absurd (fails.failed hm) hnot
    subst hm
    rw [packets_of_no_stream (by rw [call]; rfl), sent, List.map_nil, List.append_nil] at hbody
    have hlen2 : (((courses c).frames k.other).take 2).length = 2 := by
      rw [List.length_take]
      omega
    rcases hi with rfl | rfl | rfl | rfl
    · exact Or.inl ⟨take_append_left (n := 2) (by decide) hbody (by rw [hlen]; decide), by simp, by simp⟩
    · exact Or.inl ⟨take_append_left (n := 2) (by decide) hbody (by rw [hlen]; decide), by simp, by simp⟩
    · rw [List.getElem?_append_right (by rw [hlen2]; decide), hlen2] at hbody
      cases hbody
      exact Or.inr ⟨rfl, ⟨e, call⟩, ⟨e', quit⟩, fails.inserted⟩
    · rw [List.getElem?_eq_none (by rw [List.length_append, hlen2]; exact le_refl 3)] at hbody
      cases hbody
  | refused call sent =>
    rw [sent, List.getElem?_append_left (by omega)] at hbody
    exact Or.inl ⟨hbody, fun _ => Or.inr (Or.inl ⟨_, call⟩), fun _ => Or.inr (Or.inl ⟨_, call⟩)⟩
  | inserted call sent =>
    rw [sent, List.getElem?_append_left (by omega)] at hbody
    exact Or.inl ⟨hbody, fun _ => Or.inr (Or.inr ⟨_, call⟩), fun _ => Or.inr (Or.inr ⟨_, call⟩)⟩

theorem DialInv.not_hungUp (inv : DialInv d courses s) (hi : IsRecv i)
    (haes : 7 ≤ i → Reached s k.other c 6)
    (hnone : (s.frames crates.toCodec k.other c)[readBefore i]? = none) :
    s.hungUp k.other c = false := by
  have hfour := readBefore_lt_four hi
  have hlen := (courses c).length_frames k.other
  have hle := List.getElem?_eq_none_iff.mp hnone
  rw [frames, List.length_append] at hle
  cases inv.standing k.other c with
  | onCourse hi' call => rw [hungUp, call]
  | failing call => rw [hungUp, call]
  | @failed e e' m quitBody call quit sent fails =>
    exfalso
    have hm : 2 ≤ m ∧ m ≤ 3 := by
      rcases fails.written with rfl | rfl <;> omega
    rw [sent, List.length_append, List.length_take, List.length_singleton] at hle
    rcases hi with rfl | rfl | rfl | rfl
    · simp only [readBefore] at hle; omega
    · simp only [readBefore] at hle; omega
    · simp only [readBefore] at hle; omega
    · rcases (inv.standing k.other c).of_reached (haes (by decide)) with
        ⟨i', -, -, -, -, hcall⟩ | ⟨⟨stream, hcall⟩ | ⟨stream, hcall⟩, -⟩ <;>
        (rw [call] at hcall; cases hcall)
  | refused call sent => rw [sent] at hle; omega
  | inserted call sent => rw [sent] at hle; omega

theorem Reached.advance {j : ℕ} (h : Reached s k c j)
    (hcall : s.calls (k, c) = .running (courseStage (d.ends c) k i))
    (hcall' : s'.calls (k, c) = .running (courseStage (d.ends c) k (i + 1))) (hi : i + 1 ≤ 9) :
    Reached s' k c j := by
  rcases h with ⟨stage, hstage, hj, -⟩ | ⟨stream, hstage⟩ | ⟨stream, hstage⟩
  · rw [hcall] at hstage
    cases hstage
    rw [point_courseStage _ _ (by omega)] at hj
    refine Or.inl ⟨_, hcall', ?_, ?_⟩ <;> rw [point_courseStage _ _ hi] <;> omega
  · rw [hcall] at hstage
    cases hstage
  · rw [hcall] at hstage
    cases hstage

theorem DialInv.advance (inv : DialInv d courses s) (hi : i + 1 ≤ 9)
    (hcall : s.calls (k, c) = .running (courseStage (d.ends c) k i)) (hnodes : s'.nodes = s.nodes)
    (hcalls : s'.calls = Function.update s.calls (k, c)
      (.running (courseStage (d.ends c) k (i + 1))))
    (hsent : ∀ e, e ≠ (k, c) → s'.sent e = s.sent e)
    (htaken : ∀ e, e ≠ (k, c) → s'.taken e = s.taken e)
    (hsent' : s'.sent (k, c) = ((courses c).frames k).take (sentBefore (i + 1)))
    (htaken' : s'.taken (k, c) = readBefore (i + 1))
    (haes : 7 ≤ i + 1 → Reached s k.other c 6) (hehlo : 9 ≤ i + 1 → Reached s k.other c 8) :
    DialInv d courses s' := by
  have hne : (k.other, c) ≠ (k, c) := fun heq => Side.other_ne k (congrArg Prod.fst heq)
  have hcall' : s'.calls (k, c) = .running (courseStage (d.ends c) k (i + 1)) := by
    rw [hcalls, Function.update_self]
  have hother : ∀ j, Reached s k.other c j → Reached s' k.other c j :=
    fun j hr => hr.congr (by rw [hcalls, Function.update_of_ne hne])
  refine inv.ofCall hcall hnodes (fun e he => by rw [hcalls, Function.update_of_ne he]) hsent htaken
    (by rw [hcall']; rfl) (Or.inl fun j _ hr => hr.advance hcall hcall' hi) ?_
  exact .onCourse hi hcall' hsent' htaken' (fun h7 => hother 6 (haes h7))
    (fun h9 => hother 8 (hehlo h9))

/-- **A call fails** when its node has the other one already, or on a Quit. -/
theorem DialInv.fail (inv : DialInv d courses s) {stage : Stage} {e : HandshakeError} {m : ℕ}
    (hcall : s.calls (k, c) = .running stage) (hnodes : s'.nodes = s.nodes)
    (hcalls : s'.calls = Function.update s.calls (k, c) (.running (.err e)))
    (hsent : s'.sent = s.sent) (htaken : ∀ e, e ≠ (k, c) → s'.taken e = s.taken e)
    (hsent' : s.sent (k, c) = ((courses c).frames k).take m)
    (hreached : stage.point ≤ 4 ∨ HasFailed s k.other c) (hfails : Fails d s k c (courses c) m) :
    DialInv d courses s' := by
  have hcall' : s'.calls (k, c) = .running (.err e) := by rw [hcalls, Function.update_self]
  have hoff : ∀ e, e ≠ (k, c) → s'.calls e = s.calls e :=
    fun e he => by rw [hcalls, Function.update_of_ne he]
  refine inv.ofCall hcall hnodes hoff (fun e _ => by rw [hsent]) htaken
    (by rw [hcall']; rfl) (hreached.imp_left fun hle j hj hr => ?_)
    (.failing hcall' (by rw [hsent, hsent']) (hfails.transfer
      (fun j hins => inserted_transfer hins hcall hoff) fun hf => hf.transfer hcall hoff))
  rcases hr with ⟨stage', hstage, hj', -⟩ | ⟨stream, hstage⟩ | ⟨stream, hstage⟩
  · rw [hcall] at hstage
    cases hstage
    omega
  · rw [hcall] at hstage
    cases hstage
  · rw [hcall] at hstage
    cases hstage

theorem DialInv.sendQuit (inv : DialInv d courses s) {e : HandshakeError}
    (hcall : s.calls (k, c) = .running (.err e))
    (hbody : crates.rawBytes (.quit e.toQuit) = .ok body) :
    DialInv d courses ((s.write k c body).setCall k c (.failed e)) := by
  have hcall' : ((s.write k c body).setCall k c (.failed e)).calls (k, c) = .failed e :=
    Function.update_self _ _ _
  have hoff : ∀ e', e' ≠ (k, c) →
      ((s.write k c body).setCall k c (.failed e)).calls e' = s.calls e' :=
    fun e' he => Function.update_of_ne he _ _
  obtain ⟨m, hsent, hfails⟩ : ∃ m, s.sent (k, c) = ((courses c).frames k).take m ∧
      Fails d s k c (courses c) m := by
    cases inv.standing k c with
    | @onCourse i hi call =>
      rw [hcall] at call
      have hpoint := point_courseStage (d.ends c) k hi
      rw [← DialCall.running.inj call] at hpoint
      simp only [Stage.point] at hpoint
      omega
    | @failing e' m call sent fails => exact ⟨m, sent, fails⟩
    | failed call => rw [hcall] at call; cases call
    | refused call => rw [hcall] at call; cases call
    | inserted call => rw [hcall] at call; cases call
  refine inv.ofCall hcall rfl hoff (fun e' he => Function.update_of_ne he _ _) (fun _ _ => rfl)
    (by rw [hcall']; rfl) (Or.inl fun j hj hr => ?_)
    (.failed hcall' hbody ((Function.update_self _ _ _).trans (by rw [hsent]))
      (hfails.transfer (fun j hins => inserted_transfer hins hcall hoff)
        fun hf => hf.transfer hcall hoff))
  rcases hr with ⟨stage, hstage, -, h9⟩ | ⟨stream, hstage⟩ | ⟨stream, hstage⟩
  · rw [hcall] at hstage
    cases hstage
    simp [Stage.point] at h9
  · rw [hcall] at hstage
    cases hstage
  · rw [hcall] at hstage
    cases hstage

theorem Standing.at_point {course : Course (d.ends c)} (h : Standing d s k c course) (hi : i ≤ 9)
    (hcall : s.calls (k, c) = .running (courseStage (d.ends c) k i)) :
    s.sent (k, c) = (course.frames k).take (sentBefore i) ∧ s.taken (k, c) = readBefore i ∧
      (7 ≤ i → Reached s k.other c 6) ∧ (9 ≤ i → Reached s k.other c 8) := by
  have hpoint := point_courseStage (d.ends c) k hi
  cases h with
  | @onCourse i' hi' call sent taken aes ehlo =>
    rw [hcall] at call
    have hpoint' := point_courseStage (d.ends c) k hi'
    rw [← DialCall.running.inj call, hpoint] at hpoint'
    subst hpoint'
    exact ⟨sent, taken, aes, ehlo⟩
  | failing call =>
    rw [hcall] at call
    rw [DialCall.running.inj call] at hpoint
    simp only [Stage.point] at hpoint
    omega
  | failed call => rw [hcall] at call; cases call
  | refused call => rw [hcall] at call; cases call
  | inserted call => rw [hcall] at call; cases call

/-- A Quit in the clear in the place of the third frame is an error. -/
theorem received_quit (hq : QuitsWork d) {e : HandshakeError}
    (hbody : crates.rawBytes (.quit e.toQuit) = .ok body) :
    ∃ err, (courseStage (d.ends c) k 6).received (d.ends c k) body = .err err := by
  obtain ⟨err, herr⟩ := hq.clear k e body hbody
  refine ⟨.rsaError err, ?_⟩
  rw [courseStage, Stage.received]
  have hdec : crates.decrypt (d.ends c k).identity.rsaPrivateKey body = .error err := herr
  rw [hdec]

theorem DialInv.course_step (inv : DialInv d courses s) (hq : QuitsWork d) (hi : i ≤ 8)
    (hcall : s.calls (k, c) = .running (courseStage (d.ends c) k i))
    (h : d.handshake s k c (courseStage (d.ends c) k i) = some s') : DialInv d courses s' := by
  obtain ⟨hsent, htaken, haes, hehlo⟩ := (inv.standing k c).at_point (by omega) hcall
  have hcases : IsSend i ∨ IsRecv i ∨ i = 4 := by
    unfold IsSend IsRecv
    omega
  rcases hcases with hsend | hrecv | rfl
  · obtain ⟨body, hbody, hwrite⟩ := (courses c).writes k i hsend
    rw [Dialling.handshake, hwrite] at h
    cases h
    have hlen : sentBefore i < ((courses c).frames k).length := (List.getElem?_eq_some_iff.mp hbody).1
    have hbefore : sentBefore (i + 1) = sentBefore i + 1 ∧ readBefore (i + 1) = readBefore i ∧
        i + 1 ≠ 7 ∧ i + 1 ≠ 9 := by
      rcases hsend with rfl | rfl | rfl | rfl <;> decide
    refine inv.advance (by omega) hcall rfl ?_ (fun e he => Function.update_of_ne he _ _)
      (fun _ _ => rfl) ?_ (htaken.trans hbefore.2.1.symm) (fun h7 => haes (by omega))
      (fun h9 => hehlo (by omega))
    · simp only [DialState.setCall, DialState.write, courseStage_sent hsend]
    · refine (Function.update_self _ _ _).trans ?_
      rw [hsent, hbefore.1, List.take_add_one, hbody]
      rfl
  · rw [Dialling.handshake, courseStage_awaits_frame hrecv] at h
    have hbefore : sentBefore (i + 1) = sentBefore i ∧ readBefore (i + 1) = readBefore i + 1 := by
      rcases hrecv with rfl | rfl | rfl | rfl <;> decide
    cases hframe : (s.frames crates.toCodec k.other c)[s.taken (k, c)]? with
    | none =>
      rw [htaken] at hframe
      simp only [htaken, hframe, inv.not_hungUp hrecv haes hframe] at h
      cases h
    | some body =>
      simp only [hframe] at h
      rw [htaken] at hframe
      have htaken' : (s.take k c).taken (k, c) = readBefore (i + 1) := by
        rw [hbefore.2, ← htaken]
        exact Function.update_self _ _ _
      rcases inv.frame_read hrecv hcall hframe with ⟨hbody, h6, h8⟩ | ⟨rfl, hfail, ⟨e, he⟩, hins⟩
      · rw [if_pos ((courses c).short k.other body (List.mem_of_getElem? hbody))] at h
        cases h
        obtain ⟨body', hbody', hreceived⟩ := (courses c).reads k i hrecv
        rw [hbody] at hbody'
        cases hbody'
        refine inv.advance (by omega) hcall rfl ?_ (fun _ _ => rfl)
          (fun e he => Function.update_of_ne he _ _) (hsent.trans (by rw [hbefore.1])) htaken'
          (fun h7 => ?_) (fun h9 => h8 (by omega))
        · simp only [DialState.setCall, DialState.take, hreceived]
        · by_cases hi6 : i = 6
          · exact h6 hi6
          · exact haes (by omega)
      · have hfails : Fails d s k c (courses c) 3 :=
          ⟨Or.inr rfl, hins, fun _ => hfail⟩
        obtain ⟨err, herr⟩ := received_quit (d := d) (k := k) (c := c) hq he
        split at h
        · cases h
          refine inv.fail (e := err) (m := 3) hcall rfl ?_ rfl
            (fun e he => Function.update_of_ne he _ _) hsent (Or.inr hfail) hfails
          simp only [DialState.setCall, DialState.take, herr]
        · cases h
          exact inv.fail (e := .packetTooLarge) (m := 3) hcall rfl rfl rfl
            (fun e he => Function.update_of_ne he _ _) hsent (Or.inr hfail) hfails
  · rw [Dialling.handshake, courseStage_awaits_contains (d.ends c) k] at h
    cases h
    have hid : (d.ends c k.other).identity.peerId = d.them k := rfl
    rw [ConnectionPool.contains_eq_isSome, hid]
    cases hpeer : (s.nodes k).pool.connections[d.them k]? with
    | none =>
      refine inv.advance (i := 4) (by omega) hcall rfl rfl (fun _ _ => rfl) (fun _ _ => rfl) hsent
        htaken (by simp) (by simp)
    | some peer =>
      obtain ⟨c', hins⟩ := (inv.anchored k).entry peer hpeer
      have hc : c' = c.other := by
        refine Side.eq_other fun heq => ?_
        rw [← heq, hcall] at hins
        cases hins
      refine inv.fail (e := .alreadyConnected) (m := 2) hcall rfl rfl rfl (fun _ _ => rfl) hsent
        (Or.inl (le_refl 4)) ⟨Or.inl rfl, ⟨k, _, hc ▸ hins⟩, by simp⟩

end Handshake

/-! ### Insertions -/

section Insert

variable {d : Dialling crates} {courses : ∀ c, Course (d.ends c)} {s : DialState} {k c : Side}

/-- The state after a call has come to its end in the pool. -/
def inserting (crates : Crates Bytes PrivateKey Seed) (s : DialState) (k c : Side) (n : PeerID)
    (addr : String) (call : DialCall) : DialState :=
  (s.setNode k ((s.nodes k).insertPeer crates.toCodec n addr)).setCall k c call

/-- **An insertion, accepted or refused**, leaves the other calls where they stand. -/
theorem DialInv.ofInsert (inv : DialInv d courses s) {stage : Stage} {n : PeerID} {addr : String}
    {call : DialCall} (hcall : s.calls (k, c) = .running stage)
    (hend : call = .refused (s.nodes k).next ∨ call = .inserted (s.nodes k).next)
    (hanchored : Anchored d (inserting crates s k c n addr call) k)
    (hown : Standing d (inserting crates s k c n addr call) k c (courses c)) :
    DialInv d courses (inserting crates s k c n addr call) := by
  have hoff : ∀ e, e ≠ (k, c) → (inserting crates s k c n addr call).calls e = s.calls e :=
    fun e he => Function.update_of_ne he _ _
  have hself : (inserting crates s k c n addr call).calls (k, c) = call := Function.update_self _ _ _
  have hnode : ∀ j, j ≠ k → (inserting crates s k c n addr call).nodes j = s.nodes j :=
    fun j hj => Function.update_of_ne hj _ _
  have hnodeSelf : (inserting crates s k c n addr call).nodes k =
      (s.nodes k).insertPeer crates.toCodec n addr := Function.update_self _ _ _
  have hrefused : ∀ j c', s.Refused j c' → (inserting crates s k c n addr call).Refused j c' :=
    fun j c' h => refused_transfer h hcall hoff
  have hreached : ∀ j c' i, Reached s j c' i → Reached (inserting crates s k c n addr call) j c' i := by
    intro j c' i hr
    by_cases he : (j, c') = (k, c)
    · cases he
      rcases hend with rfl | rfl
      · exact Or.inr (Or.inl ⟨_, hself⟩)
      · exact Or.inr (Or.inr ⟨_, hself⟩)
    · exact hr.congr (hoff _ he)
  -- the streams of the node that have a number are not touched
  have hold : ∀ c' stream, (s.calls (k, c')).stream? = some stream → stream ≠ (s.nodes k).next :=
    fun c' stream hs => ((inv.anchored k).streams c' stream hs).ne
  have hpackets : ∀ j c', s.packets j c' <+: (inserting crates s k c n addr call).packets j c' := by
    intro j c'
    by_cases he : (j, c') = (k, c)
    · cases he
      rw [packets_of_no_stream (s := s) (by rw [hcall]; rfl)]
      exact List.nil_prefix
    · by_cases hj : j = k
      · subst hj
        cases hstream : (s.calls (j, c')).stream? with
        | none =>
          rw [packets_of_no_stream hstream]
          exact List.nil_prefix
        | some stream =>
          rw [packets_of_stream hstream, packets_of_stream ((congrArg _ (hoff _ he)).trans hstream),
            hnodeSelf, (insertPeer_of_ne _ n addr (hold c' stream hstream)).2]
      · rw [packets_congr (hoff _ he) (hnode j hj)]
  refine ⟨fun j => ?_, fun j c' => ?_⟩
  · by_cases hj : j = k
    · rw [hj]
      exact hanchored
    · exact (inv.anchored j).transfer (hnode j hj) fun c' =>
        Or.inl (hoff _ fun heq => hj (congrArg Prod.fst heq))
  · by_cases he : (j, c') = (k, c)
    · cases he
      exact hown
    refine (inv.standing j c').transfer (hoff _ he) rfl (fun _ _ => rfl)
      (fun i _ => hreached _ _ i) (fun i hins => inserted_transfer hins hcall hoff)
      (fun hf => hf.transfer hcall hoff) (fun stream href => ?_) (fun stream hins hreads => ?_)
    · by_cases hj : j = k
      · subst hj
        rw [hnodeSelf]
        exact (insertPeer_of_ne _ n addr (hold c' stream (by rw [href]; rfl))).2
      · rw [hnode j hj]
    · by_cases hj : j = k
      · subst hj
        obtain ⟨htasks, hwritten⟩ := insertPeer_of_ne crates.toCodec n addr
          (hold c' stream (by rw [hins]; rfl))
        obtain ⟨-, hin, hclosed, haborted⟩ :=
          insertPeer_next crates.toCodec (s.nodes j) n addr
        exact hreads.transfer (by rw [hnodeSelf, htasks]) (by rw [hnodeSelf, hin])
          (by rw [hnodeSelf, haborted]) (by rw [hnodeSelf, hclosed])
          (fun p hp => Or.inl (by rwa [hnodeSelf, hwritten] at hp)) rfl (hpackets _ _)
          (hrefused _ _)
      · exact hreads.transfer (by rw [hnode j hj]) (by rw [hnode j hj]) (by rw [hnode j hj])
          (by rw [hnode j hj]) (fun p hp => Or.inl (by rwa [hnode j hj] at hp)) rfl (hpackets _ _)
          (hrefused _ _)

theorem Anchored.inserting (h : Anchored d s k) {stage : Stage} {n : PeerID} {addr : String}
    {call : DialCall} (hcall : s.calls (k, c) = .running stage)
    (hend : call.stream? = some (s.nodes k).next)
    (hspawned : ∀ t, ((s.nodes k).insertPeer crates.toCodec n addr).tasks t ≠ .notSpawned →
      (∃ c, s.calls (k, c) = .inserted t) ∨ call = .inserted t)
    (hentry : ∀ peer,
      ((s.nodes k).insertPeer crates.toCodec n addr).pool.connections[d.them k]? = some peer →
      ((∃ c, s.calls (k, c) = .inserted peer.writeStream) ∨ call = .inserted peer.writeStream) ∧
        (s.nodes k).aborted peer.writeStream = false)
    (hlive : ∀ stream, ((∃ c, s.calls (k, c) = .inserted stream) ∨ call = .inserted stream) →
      (s.nodes k).aborted stream = false → ∃ peer,
        ((s.nodes k).insertPeer crates.toCodec n addr).pool.connections[d.them k]? = some peer ∧
          peer.writeStream = stream ∧ peer.readStreamTask = stream) :
    Anchored d (inserting crates s k c n addr call) k := by
  obtain ⟨hnext, hin, hclosed, haborted⟩ := insertPeer_next crates.toCodec (s.nodes k) n addr
  have hnode : (Tewta.inserting crates s k c n addr call).nodes k =
      (s.nodes k).insertPeer crates.toCodec n addr := Function.update_self _ _ _
  have hoff : ∀ e, e ≠ (k, c) →
      (Tewta.inserting crates s k c n addr call).calls e = s.calls e :=
    fun e he => Function.update_of_ne he _ _
  have hself : (Tewta.inserting crates s k c n addr call).calls (k, c) = call :=
    Function.update_self _ _ _
  have hins : ∀ stream, ((∃ c, s.calls (k, c) = .inserted stream) ∨ call = .inserted stream) →
      ∃ c', (Tewta.inserting crates s k c n addr call).calls (k, c') = .inserted stream := by
    rintro stream (⟨c', hc⟩ | rfl)
    · refine ⟨c', (hoff _ ?_).trans hc⟩
      rintro ⟨⟩
      rw [hcall] at hc
      cases hc
    · exact ⟨c, hself⟩
  have hstream : ∀ c' stream,
      ((Tewta.inserting crates s k c n addr call).calls (k, c')).stream? = some stream →
      (c' = c ∧ stream = (s.nodes k).next) ∨ (c' ≠ c ∧ (s.calls (k, c')).stream? = some stream) := by
    intro c' stream hs
    by_cases hc : c' = c
    · subst hc
      rw [hself, hend] at hs
      exact Or.inl ⟨rfl, (Option.some.inj hs).symm⟩
    · rw [hoff _ fun heq => hc (congrArg Prod.snd heq)] at hs
      exact Or.inr ⟨hc, hs⟩
  refine ⟨hnode ▸ h.numbered.insertPeer n addr, fun c' stream hs => ?_, fun c' stream hs hs' => ?_,
    fun t ht => ?_, fun peer hpeer => ?_, fun c' stream hc ha => ?_, fun peer hpeer => ?_,
    fun stream hle => ?_⟩
  · rw [hnode, hnext]
    rcases hstream c' stream hs with ⟨-, rfl⟩ | ⟨-, hs⟩
    · exact Nat.lt_succ_self _
    · exact Nat.lt_succ_of_lt (h.streams c' stream hs)
  · rcases hstream c' stream hs with ⟨rfl, rfl⟩ | ⟨-, hs⟩
    · rcases hstream _ _ hs' with ⟨heq, -⟩ | ⟨-, hs'⟩
      · exact Side.other_ne c' heq
      · exact absurd (h.streams _ _ hs') (lt_irrefl _)
    · rcases hstream _ _ hs' with ⟨-, rfl⟩ | ⟨-, hs'⟩
      · exact absurd (h.streams _ _ hs) (lt_irrefl _)
      · exact h.distinct c' stream hs hs'
  · rw [hnode] at ht
    exact hins t (hspawned t ht)
  · rw [hnode] at hpeer
    exact hins _ (hentry peer hpeer).1
  · rw [hnode, haborted] at ha
    rw [hnode]
    refine hlive stream ?_ ha
    by_cases he : c' = c
    · subst he
      exact Or.inr (hself.symm.trans hc)
    · exact Or.inl ⟨c', (hoff _ fun heq => he (congrArg Prod.snd heq)).symm.trans hc⟩
  · rw [hnode] at hpeer
    rw [hnode, haborted]
    exact (hentry peer hpeer).2
  · rw [hnode, hnext] at hle
    rw [hnode, hin, hclosed]
    exact h.silent stream (Nat.le_of_succ_le hle)

/-- **A late refusal.** -/
theorem DialInv.refuse (inv : DialInv d courses s) (hq : QuitsWork d) {peer : PeerInfo}
    {addr : String} (hcall : s.calls (k, c) = .running (courseStage (d.ends c) k 9))
    (hn : (s.nodes k).pool.connections[d.them k]? = some peer) :
    DialInv d courses
      (inserting crates s k c (d.them k) addr (.refused (s.nodes k).next)) := by
  obtain ⟨body, hbody, -⟩ := hq.alreadyConnected
  have hpeer := insertPeer_of_some addr hn hbody
  have hanch := inv.anchored k
  obtain ⟨hsent, -, -, hehlo⟩ := (inv.standing k c).at_point (le_refl 9) hcall
  obtain ⟨c', hins⟩ := hanch.entry peer hn
  have hne : c' ≠ c := by
    rintro rfl
    rw [hcall] at hins
    cases hins
  obtain rfl : c' = c.other := Side.eq_other hne.symm
  refine inv.ofInsert hcall (Or.inl rfl) (hanch.inserting hcall rfl (fun t ht => ?_)
    (fun peer' hn' => ?_) (fun stream hs ha => ?_)) (.refused (Function.update_self _ _ _) ?_ ?_
      ⟨_, (Function.update_of_ne ?_ _ _).trans hins⟩ ?_)
  · rw [hpeer] at ht
    exact Or.inl (hanch.spawned t ht)
  · rw [hpeer] at hn'
    exact ⟨Or.inl (hanch.entry peer' hn'), hanch.entryLive peer' hn'⟩
  · rw [hpeer]
    rcases hs with ⟨c', hs⟩ | hs
    · exact hanch.live c' stream hs ha
    · cases hs
  · exact hsent.trans ((courses c).take_frames k)
  · have hwritten : (inserting crates s k c (d.them k) addr
        (.refused (s.nodes k).next)).nodes k = _ := (Function.update_self _ _ _).trans hpeer
    rw [hwritten]
    have hfresh := hanch.numbered.written (s.nodes k).next (le_refl _)
    exact (Function.update_self _ _ _).trans (by rw [hfresh, List.nil_append])
  · exact fun heq => hne (congrArg Prod.snd heq)
  · exact (hehlo (le_refl 9)).congr
      (Function.update_of_ne (fun heq => Side.other_ne k (congrArg Prod.fst heq)) _ _)

/-- **An accepted connection** is read from its first frame on. -/
theorem DialInv.accept (inv : DialInv d courses s) {addr : String}
    (hcall : s.calls (k, c) = .running (courseStage (d.ends c) k 9))
    (hn : (s.nodes k).pool.connections[d.them k]? = none) :
    DialInv d courses
      (inserting crates s k c (d.them k) addr (.inserted (s.nodes k).next)) := by
  have hpeer := insertPeer_of_none crates.toCodec addr hn
  have hanch := inv.anchored k
  have haborted := hanch.numbered.aborted (s.nodes k).next (le_refl _)
  obtain ⟨hsent, htaken, -, hehlo⟩ := (inv.standing k c).at_point (le_refl 9) hcall
  have hconn : ((s.nodes k).insertPeer crates.toCodec (d.them k) addr).pool.connections[d.them k]? =
      some ⟨addr, (s.nodes k).next, none, (s.nodes k).next⟩ := by
    rw [hpeer, ConnectionPool.getElem?_insert, if_pos rfl]
  have hnode : (inserting crates s k c (d.them k) addr (.inserted (s.nodes k).next)).nodes k =
      (s.nodes k).insertPeer crates.toCodec (d.them k) addr := Function.update_self _ _ _
  obtain ⟨-, hin, hclosed, haborted'⟩ :=
    insertPeer_next crates.toCodec (s.nodes k) (d.them k) addr
  obtain ⟨hin', hclosed'⟩ := hanch.silent (s.nodes k).next (le_refl _)
  refine inv.ofInsert hcall (Or.inr rfl) (hanch.inserting hcall rfl (fun t ht => ?_)
    (fun peer' hn' => ?_) (fun stream hs ha => ?_)) (.inserted (Function.update_self _ _ _)
      (hsent.trans ((courses c).take_frames k)) ?_ ?_)
  · rw [hpeer] at ht
    by_cases hnext : t = (s.nodes k).next
    · exact Or.inr (by rw [hnext])
    · refine Or.inl (hanch.spawned t ?_)
      rwa [← tasks_setTask_of_ne (s.nodes k) hnext]
  · rw [hconn] at hn'
    cases hn'
    exact ⟨Or.inr rfl, haborted⟩
  · rcases hs with ⟨c', hs⟩ | hs
    · obtain ⟨peer, hpeer', -⟩ := hanch.live c' stream hs ha
      rw [hn] at hpeer'
      cases hpeer'
    · cases hs
      exact ⟨_, hconn, rfl, rfl⟩
  · exact (hehlo (le_refl 9)).congr
      (Function.update_of_ne (fun heq => Side.other_ne k (congrArg Prod.fst heq)) _ _)
  · have htaken' : (inserting crates s k c (d.them k) addr
        (.inserted (s.nodes k).next)).taken (k, c) = 4 := htaken
    refine ⟨htaken'.ge, by rw [htaken']; omega, ?_, fun p hp => ?_, fun hc => ?_⟩
    · rw [htaken', Nat.sub_self, List.take_zero, hnode]
      have htask : ((s.nodes k).insertPeer crates.toCodec (d.them k) addr).tasks (s.nodes k).next =
          .reading (d.them k) (s.nodes k).next [] := by
        rw [hpeer]
        exact tasks_setTask_self _ _ _
      have hnil : ([] : List Packet) = [] ++ [] := rfl
      refine .reading htask hnil ?_ (by simp) ?_
      · rw [hin, hin']
        rfl
      · rw [haborted', haborted]
        exact iff_of_false not_hasQuit_nil (by simp)
    · rw [hnode, hpeer] at hp
      have hfresh := hanch.numbered.written (s.nodes k).next (le_refl _)
      have hmem : p ∈ (s.nodes k).written (s.nodes k).next := hp
      rw [hfresh] at hmem
      cases hmem
    · rw [hnode, hclosed, hclosed'] at hc
      cases hc

end Insert

/-- What a call at the end of its course finds in the pool decides what becomes of it. -/
theorem handshake_ended (d : Dialling crates) (s : DialState) (k c : Side) :
    d.handshake s k c (courseStage (d.ends c) k 9) =
      some (inserting crates s k c (d.them k) (d.ends c k.other).identity.addr
        (match (s.nodes k).pool.connections[d.them k]? with
          | some _ => .refused (s.nodes k).next
          | none => .inserted (s.nodes k).next)) := rfl

theorem DialInv.handshake {d : Dialling crates} {courses : ∀ c, Course (d.ends c)}
    {s s' : DialState} {k c : Side} {stage : Stage} (inv : DialInv d courses s) (hq : QuitsWork d)
    (hcall : s.calls (k, c) = .running stage) (h : d.handshake s k c stage = some s') :
    DialInv d courses s' := by
  cases inv.standing k c with
  | @onCourse i hi call =>
    rw [hcall] at call
    cases call
    rcases Nat.lt_or_ge i 9 with hlt | hge
    · exact inv.course_step hq (by omega) hcall h
    · obtain rfl : i = 9 := by omega
      rw [handshake_ended] at h
      cases hn : (s.nodes k).pool.connections[d.them k]? with
      | none =>
        rw [hn] at h
        cases h
        exact inv.accept hcall hn
      | some peer =>
        rw [hn] at h
        cases h
        exact inv.refuse hq hcall hn
  | @failing e m call =>
    rw [hcall] at call
    cases call
    obtain ⟨body, hbody, -⟩ := hq.ofError e
    have hs : (s.write k c body).setCall k c (.failed e) = s' := by
      simpa [Dialling.handshake, Stage.awaits, returned, encode, hbody] using h
    rw [← hs]
    exact inv.sendQuit hcall hbody
  | failed call => rw [hcall] at call; cases call
  | refused call => rw [hcall] at call; cases call
  | inserted call => rw [hcall] at call; cases call

/-! ### Steps of a node -/

section Move

variable {d : Dialling crates} {courses : ∀ c, Course (d.ends c)} {s s' : DialState} {k c : Side}
  {node : NodeState} {stream : StreamId}

/-- What a step of a node does to its pool and to what it has written: nothing, a
packet on a connection, or the removal of one. -/
inductive PoolMove (d : Dialling crates) (s : DialState) (k : Side) (node : NodeState) : Prop
  | quiet (pool : node.pool = (s.nodes k).pool) (aborted : node.aborted = (s.nodes k).aborted)
      (written : node.written = (s.nodes k).written)
  | wrote {c : Side} {stream : StreamId} {p : Packet} (call : s.calls (k, c) = .inserted stream)
      (carried : Carried crates.toCodec p) (quit : ∀ q, p = .quit q → s.Refused k.other c)
      (pool : node.pool = (s.nodes k).pool) (aborted : node.aborted = (s.nodes k).aborted)
      (written : node.written = ((s.nodes k).wrote stream p).written)
  | removed {c : Side} {stream : StreamId} (call : s.calls (k, c) = .inserted stream)
      (alive : (s.nodes k).aborted stream = false)
      (pool : node.pool = (s.nodes k).pool.remove (d.them k))
      (aborted : node.aborted = Function.update (s.nodes k).aborted stream true)
      (written : node.written = (s.nodes k).written)

/-- A read task and what has arrived for it, after a step of its node. -/
structure Arrived (d : Dialling crates) (s s' : DialState) (k c : Side) (node : NodeState)
    (stream : StreamId) : Prop where
  taken : 4 ≤ s'.taken (k, c)
  arrived : s'.taken (k, c) ≤ 4 + (s.packets k.other c).length
  task : ReadsPackets crates.toCodec node (d.them k) stream
    ((s.packets k.other c).take (s'.taken (k, c) - 4))
  closed : node.closed stream = true → s.Refused k.other c ∧ s'.taken (k, c) = 5

/-- A step of a node: the pool, the numbers, and the read tasks. -/
structure NodeMove (d : Dialling crates) (s s' : DialState) (k : Side) (node : NodeState) :
    Prop where
  calls : s'.calls = s.calls
  sent : s'.sent = s.sent
  nodes : s'.nodes = Function.update s.nodes k node
  taken : ∀ e, (∀ stream, e.1 = k → s.calls e ≠ .inserted stream) → s'.taken e = s.taken e
  numbered : Numbered node
  next : node.next = (s.nodes k).next
  spawned : ∀ t, node.tasks t ≠ .notSpawned → (s.nodes k).tasks t ≠ .notSpawned
  silent : ∀ stream, (s.nodes k).next ≤ stream →
    node.inbound stream = (s.nodes k).inbound stream ∧ node.closed stream = (s.nodes k).closed stream
  pool : PoolMove d s k node
  arrived : ∀ c stream, s.calls (k, c) = .inserted stream → Arrived d s s' k c node stream

theorem Anchored.stream_unique (h : Anchored d s k) {c c' : Side}
    (hc : (s.calls (k, c)).stream? = some stream) (hc' : (s.calls (k, c')).stream? = some stream) :
    c' = c := by
  by_contra hne
  obtain rfl := Side.eq_other (Ne.symm hne)
  exact h.distinct c stream hc hc'

/-- What is written on a stream stays, and what is added is a packet of the move. -/
theorem PoolMove.written (h : PoolMove d s k node) (hanch : Anchored d s k) {c : Side}
    (hstream : (s.calls (k, c)).stream? = some stream) :
    node.written stream = (s.nodes k).written stream ∨
      ∃ p, node.written stream = (s.nodes k).written stream ++ [p] ∧
        s.calls (k, c) = .inserted stream ∧ Carried crates.toCodec p ∧
        ∀ q, p = .quit q → s.Refused k.other c := by
  cases h with
  | quiet _ _ written => exact Or.inl (by rw [written])
  | removed _ _ _ _ written => exact Or.inl (by rw [written])
  | @wrote c' stream' p call carried quit _ _ written =>
    by_cases heq : stream = stream'
    · subst heq
      obtain rfl := hanch.stream_unique hstream (by rw [call]; rfl)
      exact Or.inr ⟨p, by rw [written]; exact Function.update_self _ _ _, call, carried, quit⟩
    · exact Or.inl (by rw [written]; exact Function.update_of_ne heq _ _)

theorem NodeMove.anchored (h : NodeMove d s s' k node) (hanch : Anchored d s k) :
    Anchored d s' k := by
  have hnode : s'.nodes k = node := by rw [h.nodes, Function.update_self]
  have hpool : (∀ peer, node.pool.connections[d.them k]? = some peer →
        (s.nodes k).pool.connections[d.them k]? = some peer ∧
          node.aborted peer.writeStream = (s.nodes k).aborted peer.writeStream) ∧
      ∀ c stream, s.calls (k, c) = .inserted stream → node.aborted stream = false →
        (s.nodes k).aborted stream = false ∧
          node.pool.connections[d.them k]? = (s.nodes k).pool.connections[d.them k]? := by
    cases h.pool with
    | quiet pool aborted =>
      rw [pool, aborted]
      exact ⟨fun peer hp => ⟨hp, rfl⟩, fun c stream _ ha => ⟨ha, rfl⟩⟩
    | wrote _ _ _ pool aborted =>
      rw [pool, aborted]
      exact ⟨fun peer hp => ⟨hp, rfl⟩, fun c stream _ ha => ⟨ha, rfl⟩⟩
    | @removed c stream call alive pool aborted =>
      refine ⟨fun peer hp => ?_, fun c' stream' call' ha => ?_⟩
      · rw [pool, ConnectionPool.getElem?_remove, if_pos rfl] at hp
        cases hp
      · -- the other connection would have to be in the pool as well
        rw [aborted] at ha
        by_cases heq : stream' = stream
        · rw [heq, Function.update_self] at ha
          cases ha
        · rw [Function.update_of_ne heq] at ha
          obtain ⟨peer, hpeer, hwrite, -⟩ := hanch.live c stream call alive
          obtain ⟨peer', hpeer', hwrite', -⟩ := hanch.live c' stream' call' ha
          rw [hpeer] at hpeer'
          cases hpeer'
          exact absurd (hwrite'.symm.trans hwrite) heq
  refine ⟨hnode ▸ h.numbered, fun c stream hs => ?_, fun c stream hs => ?_, fun t ht => ?_,
    fun peer hp => ?_, fun c stream hc ha => ?_, fun peer hp => ?_, fun stream hle => ?_⟩
  · rw [h.calls] at hs
    rw [hnode, h.next]
    exact hanch.streams c stream hs
  · rw [h.calls] at hs ⊢
    exact hanch.distinct c stream hs
  · rw [hnode] at ht
    rw [h.calls]
    exact hanch.spawned t (h.spawned t ht)
  · rw [hnode] at hp
    rw [h.calls]
    exact hanch.entry peer (hpool.1 peer hp).1
  · rw [h.calls] at hc
    rw [hnode] at ha ⊢
    obtain ⟨ha', heq⟩ := hpool.2 c stream hc ha
    rw [heq]
    exact hanch.live c stream hc ha'
  · rw [hnode] at hp ⊢
    rw [(hpool.1 peer hp).2]
    exact hanch.entryLive peer (hpool.1 peer hp).1
  · rw [hnode, h.next] at hle
    rw [hnode, (h.silent stream hle).1, (h.silent stream hle).2]
    exact hanch.silent stream hle

theorem DialInv.move (inv : DialInv d courses s) (h : NodeMove d s s' k node) :
    DialInv d courses s' := by
  have hanch := inv.anchored k
  have hnode : s'.nodes k = node := by rw [h.nodes, Function.update_self]
  have hoff : ∀ j, j ≠ k → s'.nodes j = s.nodes j :=
    fun j hj => by rw [h.nodes, Function.update_of_ne hj]
  have hcall : ∀ e, s'.calls e = s.calls e := fun e => by rw [h.calls]
  have hrefused : ∀ j c', s.Refused j c' → s'.Refused j c' := by
    rintro j c' ⟨stream, href⟩
    exact ⟨stream, (hcall _).trans href⟩
  have hpackets : ∀ j c', s.packets j c' <+: s'.packets j c' := by
    intro j c'
    by_cases hj : j = k
    · subst hj
      cases hstream : (s.calls (j, c')).stream? with
      | none =>
        rw [packets_of_no_stream hstream]
        exact List.nil_prefix
      | some stream =>
        rw [packets_of_stream hstream, packets_of_stream ((congrArg _ (hcall _)).trans hstream),
          hnode]
        rcases h.pool.written hanch hstream with heq | ⟨p, heq, -⟩
        · rw [heq]
        · exact ⟨[p], heq.symm⟩
    · rw [packets_congr (hcall _) (hoff j hj)]
  refine ⟨fun j => ?_, fun j c' => ?_⟩
  · by_cases hj : j = k
    · rw [hj]
      exact h.anchored hanch
    · exact (inv.anchored j).transfer (hoff j hj) fun c' => Or.inl (hcall _)
  · refine (inv.standing j c').transfer (hcall _) (by rw [h.sent]) (fun stage hrun => ?_)
      (fun i _ hr => hr.congr (hcall _)) ?_ ?_ (fun stream href => ?_) (fun stream hins hreads => ?_)
    · refine h.taken _ fun stream _ hins => ?_
      rw [hrun] at hins
      cases hins
    · rintro i ⟨stream, hins⟩
      exact ⟨stream, (hcall _).trans hins⟩
    · rintro ⟨e, hf⟩
      exact ⟨e, (hcall _).trans hf⟩
    · by_cases hj : j = k
      · subst hj
        rw [hnode]
        rcases h.pool.written hanch (by rw [href]; rfl) with heq | ⟨p, -, hins, -⟩
        · exact heq
        · rw [href] at hins
          cases hins
      · rw [hoff j hj]
    · by_cases hj : j = k
      · subst hj
        obtain ⟨htaken, harrived, htask, hclosed⟩ := h.arrived c' stream hins
        have heq : s'.packets j.other c' = s.packets j.other c' :=
          packets_congr (hcall _) (hoff _ (Side.other_ne j))
        refine ⟨htaken, by rw [heq]; exact harrived, by rw [heq, hnode]; exact htask,
          fun p hp => ?_, fun hc => ?_⟩
        · rw [hnode] at hp
          rcases h.pool.written hanch (by rw [hins]; rfl) with heq | ⟨p', heq, -, hcarried, hquit⟩
          · rw [heq] at hp
            exact ⟨(hreads.written p hp).1, fun q hq => hrefused _ _ ((hreads.written p hp).2 q hq)⟩
          · rw [heq] at hp
            rcases List.mem_append.mp hp with hp | hp
            · exact ⟨(hreads.written p hp).1,
                fun q hq => hrefused _ _ ((hreads.written p hp).2 q hq)⟩
            · rw [List.mem_singleton.mp hp]
              exact ⟨hcarried, fun q hq => hrefused _ _ (hquit q hq)⟩
        · rw [hnode] at hc
          exact ⟨hrefused _ _ (hclosed hc).1, (hclosed hc).2⟩
      · exact hreads.transfer (by rw [hoff j hj]) (by rw [hoff j hj]) (by rw [hoff j hj])
          (by rw [hoff j hj]) (fun p hp => Or.inl (by rwa [hoff j hj] at hp))
          (h.taken _ fun _ hjk => absurd hjk hj) (hpackets _ _) (hrefused _ _)

/-- Whatever a node writes after the handshake can be read. -/
theorem DialInv.carried (inv : DialInv d courses s) (hq : QuitsWork d) :
    ∀ p ∈ s.packets k c, Carried crates.toCodec p := by
  intro p hp
  cases inv.standing k c with
  | refused call sent written =>
    rw [packets_of_stream (by rw [call]; rfl), written] at hp
    rw [List.mem_singleton.mp hp]
    exact ⟨hq.alreadyConnected, rfl⟩
  | inserted call sent ehlo reads =>
    rw [packets_of_stream (by rw [call]; rfl)] at hp
    exact (reads.written p hp).1
  | onCourse hi call => rw [packets_of_no_stream (by rw [call]; rfl)] at hp; cases hp
  | failing call => rw [packets_of_no_stream (by rw [call]; rfl)] at hp; cases hp
  | failed call => rw [packets_of_no_stream (by rw [call]; rfl)] at hp; cases hp

theorem DialInv.arrived_of_congr (inv : DialInv d courses s)
    (hcall : s.calls (k, c) = .inserted stream) (htaken : s'.taken (k, c) = s.taken (k, c))
    (htasks : node.tasks stream = (s.nodes k).tasks stream)
    (hin : node.inbound stream = (s.nodes k).inbound stream)
    (haborted : node.aborted stream = (s.nodes k).aborted stream)
    (hclosed : node.closed stream = (s.nodes k).closed stream) :
    Arrived d s s' k c node stream := by
  obtain ⟨hreads, -, -⟩ := (inv.standing k c).reads hcall
  exact ⟨by rw [htaken]; exact hreads.taken, by rw [htaken]; exact hreads.arrived,
    by rw [htaken]; exact hreads.task.congr htasks hin haborted,
    fun hc => by rw [htaken]; exact hreads.closed (hclosed ▸ hc)⟩

theorem DialInv.poll (inv : DialInv d courses s) (hq : QuitsWork d)
    (hdec : ∀ p body, crates.rawBytes p = .ok body → crates.fromRawBytes body = .ok p)
    {t : TaskId} {shuffle : Shuffle}
    (hfits : ∀ n stream response p,
      (s.nodes k).tasks t = .handling n stream (.reply response p) → Fits crates response)
    (h : (s.nodes k).pollTask crates.toCodec t true shuffle = some node) :
    DialInv d courses (s.setNode k node) := by
  have hanch := inv.anchored k
  obtain ⟨c, hcall⟩ : ∃ c, s.calls (k, c) = .inserted t := by
    refine hanch.spawned t fun hnone => ?_
    simp [NodeState.pollTask, hnone] at h
  obtain ⟨hreads, -, -⟩ := (inv.standing k c).reads hcall
  have hrefused : HasQuit ((s.packets k.other c).take (s.taken (k, c) - 4)) →
      s.Refused k.other c := by
    rintro ⟨q, hmem⟩
    exact inv.refused_of_hasQuit ⟨t, hcall⟩ ⟨q, List.mem_of_mem_take hmem⟩
  have hone : HasQuit ((s.packets k.other c).take (s.taken (k, c) - 4)) →
      ∃ q, (s.packets k.other c).take (s.taken (k, c) - 4) = [.quit q] := by
    -- a Quit is the refusal, and a refusal is all there is
    rintro ⟨q, hmem⟩
    have hall := (inv.standing k.other c).packets_of_refused (hrefused ⟨q, hmem⟩)
    rw [hall] at hmem ⊢
    cases hn : s.taken (k, c) - 4 with
    | zero =>
      rw [hn] at hmem
      cases hmem
    | succ n => exact ⟨alreadyConnected, by rw [List.take_succ_cons, List.take_nil]⟩
  have hclosed : (s.nodes k).closed t = true →
      HasQuit ((s.packets k.other c).take (s.taken (k, c) - 4)) := by
    intro hc
    obtain ⟨href, hfive⟩ := hreads.closed hc
    rw [(inv.standing k.other c).packets_of_refused href, hfive]
    exact ⟨_, List.mem_singleton_self _⟩
  obtain ⟨htask, hframe, heffect⟩ := hreads.task.pollTask hdec
    (fun p hp => inv.carried hq p (List.mem_of_mem_take hp)) hone hclosed
    (fun ha => hanch.live c t hcall ha) h
  refine inv.move (k := k) ⟨rfl, rfl, rfl, fun _ _ => rfl,
    hanch.numbered.pollTask h, hframe.next, fun t' ht' => ?_, fun stream hle => ?_, ?_,
    fun c' stream hcall' => ?_⟩
  · by_cases heq : t' = t
    · subst heq
      intro hnone
      simp [NodeState.pollTask, hnone] at h
    · rwa [hframe.tasks t' heq] at ht'
  · have hne : stream ≠ t := by
      rintro rfl
      exact absurd (hanch.streams c stream (by rw [hcall]; rfl)) (Nat.not_lt.mpr hle)
    exact ⟨hframe.inbound stream hne, by rw [hframe.closed]⟩
  · cases heffect with
    | quiet pool aborted written => exact .quiet pool aborted written
    | replied task isResponse raw entry pool aborted written =>
      obtain ⟨c', hcall'⟩ := hanch.entry _ entry
      refine .wrote hcall' ⟨⟨_, raw, hfits _ _ _ _ task _ raw⟩,
        Packet.not_handshake_of_isResponse isResponse⟩ (fun q heq => ?_) pool aborted written
      rw [heq] at isResponse
      cases isResponse
    | quitted quit raw alive pool aborted written =>
      exact .wrote hcall ⟨hq.quitReceived, rfl⟩ (fun _ _ => hrefused quit) pool aborted written
    | removed quit alive pool aborted written => exact .removed hcall alive pool aborted written
  · by_cases heq : stream = t
    · subst heq
      obtain rfl := hanch.stream_unique (by rw [hcall]; rfl) (by rw [hcall']; rfl)
      exact ⟨hreads.taken, hreads.arrived, htask, fun hc => hreads.closed (hframe.closed ▸ hc)⟩
    · refine inv.arrived_of_congr hcall' rfl (hframe.tasks stream heq)
        (hframe.inbound stream heq) ?_ (by rw [hframe.closed])
      cases heffect with
      | quiet _ aborted => rw [aborted]
      | replied _ _ _ _ _ aborted => rw [aborted]
      | quitted _ _ _ _ aborted => rw [aborted]
      | removed _ _ _ aborted => rw [aborted, Function.update_of_ne heq]

theorem DialInv.cancel (inv : DialInv d courses s) {t : TaskId}
    (haborted : (s.nodes k).aborted t = true) (halive : ((s.nodes k).tasks t).isAlive = true) :
    DialInv d courses (s.setNode k ((s.nodes k).setTask t .cancelled)) := by
  have hanch := inv.anchored k
  have hspawned : (s.nodes k).tasks t ≠ .notSpawned := by
    intro hnone
    rw [hnone] at halive
    cases halive
  refine inv.move (k := k) ⟨rfl, rfl, rfl, fun _ _ => rfl,
    hanch.numbered.setTask (hanch.numbered.lt_of_task hspawned) _, rfl, fun t' ht' => ?_,
    fun _ _ => ⟨rfl, rfl⟩, .quiet rfl rfl rfl, fun c stream hcall => ?_⟩
  · by_cases heq : t' = t
    · rw [heq]
      exact hspawned
    · rwa [tasks_setTask_of_ne _ heq] at ht'
  · by_cases heq : stream = t
    · subst heq
      obtain ⟨hreads, -, -⟩ := (inv.standing k c).reads hcall
      exact ⟨hreads.taken, hreads.arrived, hreads.task.cancel haborted, hreads.closed⟩
    · exact inv.arrived_of_congr hcall rfl (tasks_setTask_of_ne _ heq _) rfl rfl rfl

theorem DialInv.send (inv : DialInv d courses s) {p : Packet} {peer : PeerInfo} {body : Bytes}
    (hhandshake : p.isHandshake = false) (hfits : Fits crates p) (hquit : ∀ q, p ≠ .quit q)
    (hbody : crates.rawBytes p = .ok body)
    (hn : (s.nodes k).pool.connections[d.them k]? = some peer) :
    DialInv d courses (s.setNode k ((s.nodes k).wrote peer.writeStream p)) := by
  have hanch := inv.anchored k
  obtain ⟨c, hcall⟩ := hanch.entry peer hn
  exact inv.move (k := k) ⟨rfl, rfl, rfl, fun _ _ => rfl, hanch.numbered.wrote hn p, rfl,
    fun _ ht => ht, fun _ _ => ⟨rfl, rfl⟩,
    .wrote hcall ⟨⟨body, hbody, hfits body hbody⟩, hhandshake⟩
      (fun q heq => absurd heq (hquit q)) rfl rfl rfl,
    fun c' stream hcall' => inv.arrived_of_congr hcall' rfl rfl rfl rfl rfl⟩

theorem DialInv.outside (inv : DialInv d courses s) (dht : DhtStore) :
    DialInv d courses (s.setNode k { s.nodes k with dht := dht }) := by
  have hnum := (inv.anchored k).numbered
  exact inv.move (k := k) ⟨rfl, rfl, rfl, fun _ _ => rfl,
    ⟨hnum.entries, hnum.tasks, hnum.aborted, hnum.written⟩, rfl, fun _ ht => ht,
    fun _ _ => ⟨rfl, rfl⟩, .quiet rfl rfl rfl,
    fun c' stream hcall' => inv.arrived_of_congr hcall' rfl rfl rfl rfl rfl⟩

/-- **A frame arrives** for a read task: the next packet of the other end. -/
theorem DialInv.deliver (inv : DialInv d courses s) {body : Bytes}
    (hcall : s.calls (k, c) = .inserted stream)
    (hbody : (s.frames crates.toCodec k.other c)[s.taken (k, c)]? = some body)
    (hopen : (s.nodes k).closed stream = false) :
    DialInv d courses ((s.take k c).setNode k
      { s.nodes k with
        inbound := Function.update (s.nodes k).inbound stream
          ((s.nodes k).inbound stream ++ frame body) }) := by
  have hanch := inv.anchored k
  obtain ⟨hreads, hehlo, -⟩ := (inv.standing k c).reads hcall
  have hnum := hanch.numbered
  have hlen := (courses c).length_frames k.other
  rw [frames, (inv.standing k.other c).sent_of_reached hehlo,
    List.getElem?_append_right (by rw [hlen]; exact hreads.taken), hlen,
    List.getElem?_map] at hbody
  obtain ⟨p, hp, rfl⟩ := Option.map_eq_some_iff.mp hbody
  have htaken : (s.take k c).taken (k, c) = s.taken (k, c) + 1 := Function.update_self _ _ _
  have hlt := (List.getElem?_eq_some_iff.mp hp).1
  have h4 := hreads.taken
  refine inv.move (k := k) ⟨rfl, rfl, rfl, fun e he => Function.update_of_ne ?_ _ _,
    ⟨hnum.entries, hnum.tasks, hnum.aborted, hnum.written⟩, rfl, fun _ ht => ht,
    fun stream' hle => ⟨Function.update_of_ne ?_ _ _, rfl⟩, .quiet rfl rfl rfl,
    fun c' stream' hcall' => ?_⟩
  · rintro rfl
    exact he stream rfl hcall
  · rintro rfl
    exact absurd (hanch.streams c stream' (by rw [hcall]; rfl)) (Nat.not_lt.mpr hle)
  · by_cases heq : stream' = stream
    · subst heq
      obtain rfl := hanch.stream_unique (by rw [hcall]; rfl) (by rw [hcall']; rfl)
      refine ⟨?_, ?_, ?_, fun hc => ?_⟩
      · exact htaken ▸ Nat.le_succ_of_le h4
      · refine (htaken.trans_le ?_)
        omega
      · have hin : (Function.update (s.nodes k).inbound stream'
            ((s.nodes k).inbound stream' ++ frame (encoded crates.toCodec p))) stream' =
              (s.nodes k).inbound stream' ++ packetFrame crates.toCodec p :=
          Function.update_self _ _ _
        have htask : ReadsPackets crates.toCodec
            { s.nodes k with
              inbound := Function.update (s.nodes k).inbound stream'
                ((s.nodes k).inbound stream' ++ frame (encoded crates.toCodec p)) }
            (d.them k) stream' ((s.packets k.other c').take (s.taken (k, c') - 4) ++ [p]) :=
          hreads.task.arrive rfl hin rfl
        have hsucc : (s.take k c').taken (k, c') - 4 = s.taken (k, c') - 4 + 1 := by
          rw [htaken]
          omega
        have hpackets : (s.packets k.other c').take ((s.take k c').taken (k, c') - 4) =
            (s.packets k.other c').take (s.taken (k, c') - 4) ++ [p] := by
          rw [hsucc, List.take_add_one, hp]
          rfl
        exact hpackets ▸ htask
      · have hc' : (s.nodes k).closed stream' = true := hc
        rw [hopen] at hc'
        cases hc'
    · refine inv.arrived_of_congr hcall' (Function.update_of_ne ?_ _ _) rfl
        (Function.update_of_ne heq _ _) rfl rfl
      rintro ⟨⟩
      rw [hcall] at hcall'
      cases hcall'
      exact heq rfl

/-- **The end of a stream arrives** for a read task: after the Quit of a refusal. -/
theorem DialInv.hangUp (inv : DialInv d courses s) (hcall : s.calls (k, c) = .inserted stream)
    (hup : s.hungUp k.other c = true)
    (hle : (s.frames crates.toCodec k.other c).length ≤ s.taken (k, c)) :
    DialInv d courses (s.setNode k
      { s.nodes k with closed := Function.update (s.nodes k).closed stream true }) := by
  have hanch := inv.anchored k
  obtain ⟨hreads, hehlo, -⟩ := (inv.standing k c).reads hcall
  have hnum := hanch.numbered
  have hrefused : s.Refused k.other c := by
    rcases (inv.standing k.other c).of_reached hehlo with
      ⟨i, -, -, -, -, hrun⟩ | ⟨href | ⟨stream', hins⟩, -⟩
    · rw [hungUp, hrun] at hup
      cases hup
    · exact href
    · rw [hungUp, hins] at hup
      have href := inv.refused_of_aborted hins hup
      rw [Side.other_other] at href
      exact absurd href (not_refused_of_inserted ⟨stream, hcall⟩)
  have hfive : s.taken (k, c) = 5 := by
    have harrived := hreads.arrived
    rw [frames, List.length_append, List.length_map,
      (inv.standing k.other c).sent_of_reached hehlo, (courses c).length_frames] at hle
    rw [(inv.standing k.other c).packets_of_refused hrefused] at harrived hle
    exact le_antisymm harrived hle
  refine inv.move (k := k) ⟨rfl, rfl, rfl, fun _ _ => rfl,
    ⟨hnum.entries, hnum.tasks, hnum.aborted, hnum.written⟩, rfl, fun _ ht => ht,
    fun stream' hle' => ⟨rfl, Function.update_of_ne ?_ _ _⟩, .quiet rfl rfl rfl,
    fun c' stream' hcall' => ?_⟩
  · rintro rfl
    exact absurd (hanch.streams c stream' (by rw [hcall]; rfl)) (Nat.not_lt.mpr hle')
  · by_cases heq : stream' = stream
    · subst heq
      obtain rfl := hanch.stream_unique (by rw [hcall]; rfl) (by rw [hcall']; rfl)
      exact ⟨hreads.taken, hreads.arrived, hreads.task.congr rfl rfl rfl,
        fun _ => ⟨hrefused, hfive⟩⟩
    · exact inv.arrived_of_congr hcall' rfl rfl rfl rfl (Function.update_of_ne heq _ _)

end Move

/-! ### Every step -/

section Step

variable {d : Dialling crates} {courses : ∀ c, Course (d.ends c)} {s s' : DialState}

theorem DialInv.init (d : Dialling crates) (courses : ∀ c, Course (d.ends c)) :
    DialInv d courses d.init where
  anchored k :=
    { numbered := .init _
      streams := fun c stream h => by cases h
      distinct := fun c stream h => by cases h
      spawned := fun t h => absurd rfl h
      entry := fun peer h => by simp [Dialling.init, NodeState.init, ConnectionPool.new] at h
      live := fun c stream h => by cases h
      entryLive := fun peer h => by simp [Dialling.init, NodeState.init, ConnectionPool.new] at h
      silent := fun stream _ => ⟨rfl, rfl⟩ }
  standing k c := .onCourse (i := 0) (by decide) rfl rfl rfl (by simp) (by simp)

theorem DialInv.step (inv : DialInv d courses s) (hq : QuitsWork d)
    (hdec : ∀ p body, crates.rawBytes p = .ok body → crates.fromRawBytes body = .ok p)
    {l : DialLabel} (hcivil : Civil crates s l) (h : d.step s l = some s') :
    DialInv d courses s' := by
  have hnode : ∀ {u : DialState} {k : Side} {l : NodeLabel}, nodeStep crates.toCodec u k l = some s' →
      ∃ node, (u.nodes k).step crates.toCodec l = some node ∧ s' = u.setNode k node := by
    intro u k l hl
    obtain ⟨node, hnode, hs⟩ := Option.map_eq_some_iff.mp hl
    exact ⟨node, hnode, hs.symm⟩
  cases l with
  | handshake k c =>
    rw [Dialling.step] at h
    split at h
    · rename_i stage hcall
      exact inv.handshake hq hcall h
    · cases h
  | deliver k c =>
    rw [Dialling.step] at h
    split at h
    · rename_i stream hcall
      split at h
      · rename_i body hbody
        obtain ⟨node, hstep, rfl⟩ := hnode h
        rw [NodeState.step] at hstep
        split at hstep
        · cases hstep
        · rename_i hopen
          cases hstep
          exact inv.deliver hcall hbody (Bool.eq_false_iff.mpr hopen)
      · cases h
    · cases h
  | hangUp k c =>
    rw [Dialling.step] at h
    split at h
    · rename_i stream hcall
      split at h
      · rename_i hup
        obtain ⟨node, hstep, rfl⟩ := hnode h
        cases hstep
        exact inv.hangUp hcall hup.1 hup.2
      · cases h
    · cases h
  | poll k t shuffle =>
    obtain ⟨node, hstep, rfl⟩ := hnode h
    exact inv.poll hq hdec hcivil hstep
  | cancel k t =>
    obtain ⟨node, hstep, rfl⟩ := hnode h
    rw [NodeState.step] at hstep
    split at hstep
    · rename_i hok
      cases hstep
      obtain ⟨haborted, halive⟩ := Bool.and_eq_true_iff.mp hok
      exact inv.cancel haborted halive
    · cases hstep
  | send k p =>
    obtain ⟨node, hstep, rfl⟩ := hnode h
    rw [NodeState.step] at hstep
    cases hsend : (s.nodes k).sendPacket crates.toCodec (d.them k) p true with
    | none =>
      rw [hsend] at hstep
      cases hstep
      exact inv.outside (s.nodes k).dht
    | some u =>
      rw [hsend] at hstep
      cases hstep
      rcases sendPacket_cases hsend with rfl | ⟨peer, body, hquit, hbody, hn, rfl⟩
      · exact inv.outside (s.nodes k).dht
      · exact inv.send hcivil.1 hcivil.2 hquit hbody hn
  | setDht k key value =>
    obtain ⟨node, hstep, rfl⟩ := hnode h
    cases hstep
    exact inv.outside _

end Step

end Tewta
