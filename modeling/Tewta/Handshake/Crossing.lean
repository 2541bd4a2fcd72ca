import Tewta.Handshake.Agreement
import Tewta.Handshake.Standing.Steps

/-!
# Simultaneous dialling

Two nodes that dial each other end up with one connection, the same for both, or
with none: `dialling_converges_unless_crossed` is about every run into a quiescent
state.  They end up with none exactly when they have crossed, that is, each has
inserted one stream, refused the other in `insert`, and they have chosen
differently; then each Quit of a refusal takes the other node's only connection
away.  `exists_crossed_run` says that any two honest nodes can get there.
-/

namespace Tewta

open Framing Transition Duplex NodeState DialState Dialling

variable {PrivateKey Seed : Type} {crates : Crates Bytes PrivateKey Seed}

/-! ### Quiescent states -/

section Quiescent

variable {d : Dialling crates} {courses : ∀ c, Course (d.ends c)} {s s' : DialState} {k c : Side}

theorem DialInv.inserted_of_holdsOver (h : d.HoldsOver s k c) : s.Inserted k c := by
  obtain ⟨stream, peer, hcall, -⟩ := h
  exact ⟨stream, hcall⟩

/-- In a quiescent state a connection is gone exactly when the other end has
refused it. -/
theorem DialInv.aborted_iff_refused (inv : DialInv d courses s) (hquiet : d.Quiescent s)
    {stream : StreamId} (hcall : s.calls (k, c) = .inserted stream) :
    (s.nodes k).aborted stream = true ↔ s.Refused k.other c := by
  refine ⟨inv.refused_of_aborted hcall, fun href => ?_⟩
  obtain ⟨hreads, hehlo, -⟩ := (inv.standing k c).reads hcall
  have hall := (inv.standing k.other c).packets_of_refused href
  have hk := hquiet k c
  rw [hcall] at hk
  have hidle : ((s.nodes k).tasks stream).isAlive = true →
      (s.nodes k).tasks stream = .reading (d.them k) stream [] ∧ (s.nodes k).inbound stream = [] ∧
        s.taken (k, c) = (s.frames crates.toCodec k.other c).length := hk
  cases hreads.task with
  | @reading got handled pending task split bytes within quit =>
    obtain ⟨htask, hin, htaken⟩ := hidle (by rw [task]; rfl)
    rw [task] at htask
    cases htask
    -- nothing is pending, so the Quit has been handled
    have hpending : pending = [] := by
      cases pending with
      | nil => rfl
      | cons p rest =>
        rw [hin, List.flatMap_cons] at bytes
        exact absurd (List.append_eq_nil_iff.mp bytes.symm).1 (frame_ne_nil _)
    rw [hpending, List.append_nil] at split
    refine quit.mp ?_
    rw [← split, htaken, frames, (inv.standing k.other c).sent_of_reached hehlo,
      List.length_append, (courses c).length_frames, List.length_map, hall]
    exact ⟨_, List.mem_singleton_self _⟩
  | @handling handler handled pending task =>
    obtain ⟨htask, -⟩ := hidle (by rw [task]; rfl)
    rw [task] at htask
    cases htask
  | ended task aborted => exact aborted

/-- A call that is over got to its end together with the call at the other end. -/
theorem DialInv.ended_of_reached (inv : DialInv d courses s) (hquiet : d.Quiescent s)
    (hr : Reached s k c 8) : s.Refused k c ∨ s.Inserted k c := by
  rcases (inv.standing k c).of_reached hr with ⟨i, -, -, -, -, hcall⟩ | ⟨hend, -⟩
  · have hk := hquiet k c
    rw [hcall] at hk
    exact absurd hk id
  · exact hend

/-- **The pools agree** in a quiescent state: a connection that one node holds, the
other holds as well. -/
theorem DialInv.holdsOver_other (inv : DialInv d courses s) (hquiet : d.Quiescent s)
    (h : d.HoldsOver s k c) : d.HoldsOver s k.other c := by
  obtain ⟨stream, peer, hcall, hpeer, hwrite⟩ := h
  obtain ⟨-, hehlo, -⟩ := (inv.standing k c).reads hcall
  have halive : (s.nodes k).aborted stream = false := hwrite ▸ (inv.anchored k).entryLive peer hpeer
  rcases inv.ended_of_reached hquiet hehlo with href | ⟨stream', hcall'⟩
  · rw [(inv.aborted_iff_refused hquiet hcall).mpr href] at halive
    cases halive
  · have halive' : (s.nodes k.other).aborted stream' = false := by
      by_contra ha
      have href := inv.refused_of_aborted hcall' (by simpa using ha)
      rw [Side.other_other] at href
      exact not_refused_of_inserted ⟨stream, hcall⟩ href
    obtain ⟨peer', hpeer', hwrite', -⟩ := (inv.anchored k.other).live c stream' hcall' halive'
    exact ⟨stream', peer', hcall', hpeer', hwrite'⟩

/-- Both nodes have got one stream at least into their pools. -/
theorem DialInv.exists_inserted (inv : DialInv d courses s) (hquiet : d.Quiescent s) :
    ∀ k, ∃ c, s.Inserted k c := by
  have hone : ∃ k c, s.Inserted k c := by
    cases inv.standing .left .left with
    | onCourse hi call =>
      have hk := hquiet .left .left
      rw [call] at hk
      exact absurd hk id
    | failing call =>
      have hk := hquiet .left .left
      rw [call] at hk
      exact absurd hk id
    | failed call quit sent fails =>
      obtain ⟨j, hj⟩ := fails.inserted
      exact ⟨j, _, hj⟩
    | refused call sent written inserted => exact ⟨_, _, inserted⟩
    | inserted call => exact ⟨_, _, _, call⟩
  obtain ⟨k, c, stream, hcall⟩ := hone
  have hother : ∃ c, s.Inserted k.other c := by
    obtain ⟨-, hehlo, -⟩ := (inv.standing k c).reads hcall
    rcases inv.ended_of_reached hquiet hehlo with ⟨stream', href⟩ | hins
    · cases inv.standing k.other c with
      | refused call sent written inserted => exact ⟨_, inserted⟩
      | onCourse hi call => rw [href] at call; cases call
      | failing call => rw [href] at call; cases call
      | failed call => rw [href] at call; cases call
      | inserted call => rw [href] at call; cases call
    · exact ⟨c, hins⟩
  intro j
  by_cases hj : k = j
  · exact hj ▸ ⟨c, stream, hcall⟩
  · exact Side.eq_other hj ▸ hother

/-- A node that holds the other over no stream has had its connection refused, and
has refused the other stream itself. -/
theorem DialInv.crossed_of_not_holdsOver (inv : DialInv d courses s) (hquiet : d.Quiescent s)
    (hnone : ∀ k c, ¬ d.HoldsOver s k c) : Crossed s := by
  have hgone : ∀ k c, s.Inserted k c → s.Refused k.other c := by
    rintro k c ⟨stream, hcall⟩
    refine inv.refused_of_aborted hcall ?_
    by_contra ha
    obtain ⟨peer, hpeer, hwrite, -⟩ := (inv.anchored k).live c stream hcall (by simpa using ha)
    exact hnone k c ⟨stream, peer, hcall, hpeer, hwrite⟩
  have hcross : ∀ k c, s.Refused k c → s.Inserted k c.other := by
    rintro k c ⟨stream, href⟩
    cases inv.standing k c with
    | refused call sent written inserted => exact inserted
    | onCourse hi call => rw [href] at call; cases call
    | failing call => rw [href] at call; cases call
    | failed call => rw [href] at call; cases call
    | inserted call => rw [href] at call; cases call
  obtain ⟨c, hins⟩ := inv.exists_inserted hquiet .left
  have href := hgone .left c hins
  have hins' := hcross .right c href
  exact ⟨c, hins, hgone .right c.other hins', hins', href⟩

theorem not_crossed_of_holdsOver (h : ∀ k, d.HoldsOver s k c) : ¬ Crossed s := by
  rintro ⟨c', hleft, hleft', hright, hright'⟩
  have hl := DialInv.inserted_of_holdsOver (h .left)
  have hr := DialInv.inserted_of_holdsOver (h .right)
  by_cases hc : c = c'
  · exact not_refused_of_inserted hr (hc ▸ hright')
  · obtain rfl := Side.eq_other (Ne.symm hc)
    exact not_refused_of_inserted hl hleft'

theorem DialInv.outcome (inv : DialInv d courses s) (hquiet : d.Quiescent s) :
    (¬ Crossed s ∧ ∃ c, ∀ k, d.HoldsOver s k c) ∨
      (Crossed s ∧ ∀ k, (s.nodes k).pool.connections[d.them k]? = none) := by
  by_cases hholds : ∃ k c, d.HoldsOver s k c
  · obtain ⟨k, c, h⟩ := hholds
    have hall : ∀ j, d.HoldsOver s j c := by
      intro j
      by_cases hj : k = j
      · exact hj ▸ h
      · exact Side.eq_other hj ▸ inv.holdsOver_other hquiet h
    exact Or.inl ⟨not_crossed_of_holdsOver hall, c, hall⟩
  · have hnone : ∀ k c, ¬ d.HoldsOver s k c := fun k c h => hholds ⟨k, c, h⟩
    refine Or.inr ⟨inv.crossed_of_not_holdsOver hquiet hnone, fun k => ?_⟩
    cases hpeer : (s.nodes k).pool.connections[d.them k]? with
    | none => rfl
    | some peer =>
      obtain ⟨c, hcall⟩ := (inv.anchored k).entry peer hpeer
      exact absurd ⟨_, peer, hcall, hpeer, rfl⟩ (hnone k c)

end Quiescent

/-! ### A run that crosses -/

section Run

variable {d : Dialling crates}

/-- A run of steps that are civil. -/
abbrev CivilRun (d : Dialling crates) : DialState → DialState → Prop :=
  Relation.ReflTransGen (Permitted d.step (Civil crates))

theorem DialInv.run {courses : ∀ c, Course (d.ends c)} {s t : DialState}
    (inv : DialInv d courses s) (hq : QuitsWork d)
    (hdec : ∀ p body, crates.rawBytes p = .ok body → crates.fromRawBytes body = .ok p)
    (h : CivilRun d s t) : DialInv d courses t := by
  induction h with
  | refl => exact inv
  | tail _ hstep ih =>
    obtain ⟨l, hcivil, hl⟩ := hstep
    exact ih.step hq hdec hcivil hl

/-- Each call at a point of its course, and nobody in a pool yet. -/
def courseState (courses : ∀ c, Course (d.ends c)) (points : Side × Side → ℕ) : DialState where
  nodes k := NodeState.init (d.identity k).peerId
  calls e := .running (courseStage (d.ends e.2) e.1 (points e))
  sent e := ((courses e.2).frames e.1).take (sentBefore (points e))
  taken e := readBefore (points e)

variable {courses : ∀ c, Course (d.ends c)} {k c : Side}

theorem courseState_update {points : Side × Side → ℕ} {j : ℕ} {s : DialState}
    (hnodes : s.nodes = (courseState courses points).nodes)
    (hcalls : s.calls = Function.update (courseState courses points).calls (k, c)
      (.running (courseStage (d.ends c) k j)))
    (hsent : s.sent = Function.update (courseState courses points).sent (k, c)
      (((courses c).frames k).take (sentBefore j)))
    (htaken : s.taken = Function.update (courseState courses points).taken (k, c) (readBefore j)) :
    s = courseState courses (Function.update points (k, c) j) := by
  obtain ⟨nodes, calls, sent, taken⟩ := s
  simp only at hnodes hcalls hsent htaken
  subst hnodes hcalls hsent htaken
  simp only [courseState, DialState.mk.injEq, true_and]
  refine ⟨funext fun e => ?_, funext fun e => ?_, funext fun e => ?_⟩ <;> by_cases he : e = (k, c)
  · subst he
    simp
  · simp [he]
  · subst he
    simp
  · simp [he]
  · simp [he]
  · simp [he]

theorem step_courseState {points : Side × Side → ℕ} (hle : points (k, c) ≤ 8)
    (hready : IsRecv (points (k, c)) →
      readBefore (points (k, c)) < sentBefore (points (k.other, c))) :
    d.step (courseState courses points) (.handshake k c) =
      some (courseState courses (Function.update points (k, c) (points (k, c) + 1))) := by
  have hcases : IsSend (points (k, c)) ∨ IsRecv (points (k, c)) ∨ points (k, c) = 4 := by
    unfold IsSend IsRecv
    omega
  have hstep : d.step (courseState courses points) (.handshake k c) =
      d.handshake (courseState courses points) k c
        (courseStage (d.ends c) k (points (k, c))) := rfl
  rw [hstep, Dialling.handshake]
  rcases hcases with hsend | hrecv | hfour
  · obtain ⟨body, hbody, hwrite⟩ := (courses c).writes k _ hsend
    have hbefore : sentBefore (points (k, c) + 1) = sentBefore (points (k, c)) + 1 ∧
        readBefore (points (k, c) + 1) = readBefore (points (k, c)) := by
      rcases hsend with h | h | h | h <;> rw [h] <;> decide
    rw [hwrite]
    refine congrArg some (courseState_update rfl ?_ ?_ ?_)
    · rw [courseStage_sent hsend]
      rfl
    · rw [hbefore.1, List.take_add_one, hbody]
      rfl
    · rw [hbefore.2]
      exact (Function.update_eq_self _ _).symm
  · have hbefore : sentBefore (points (k, c) + 1) = sentBefore (points (k, c)) ∧
        readBefore (points (k, c) + 1) = readBefore (points (k, c)) + 1 := by
      rcases hrecv with h | h | h | h <;> rw [h] <;> decide
    obtain ⟨body, hbody, hreceived⟩ := (courses c).reads k _ hrecv
    have hframe : ((courseState courses points).frames crates.toCodec k.other c)[
        (courseState courses points).taken (k, c)]? = some body := by
      have hpackets : (courseState courses points).packets k.other c = [] :=
        packets_of_no_stream rfl
      rw [frames, hpackets, List.map_nil, List.append_nil]
      exact (List.getElem?_take_of_lt (hready hrecv)).trans hbody
    simp only [courseStage_awaits_frame hrecv, hframe,
      if_pos ((courses c).short k.other body (List.mem_of_getElem? hbody)), hreceived]
    refine congrArg some (courseState_update rfl rfl ?_ ?_)
    · rw [hbefore.1]
      exact (Function.update_eq_self _ _).symm
    · rw [hbefore.2]
      rfl
  · have hempty : ((courseState courses points).nodes k).pool.contains
        (d.ends c k.other).identity.peerId = false := by
      simp [courseState, NodeState.init, ConnectionPool.new, ConnectionPool.contains]
    rw [hfour, courseStage_awaits_contains _ k]
    simp only [hempty, courseStage_checked]
    refine congrArg some (courseState_update rfl rfl ?_ ?_)
    · have hsent : sentBefore (4 + 1) = sentBefore (points (k, c)) := by rw [hfour]; rfl
      rw [hsent]
      exact (Function.update_eq_self _ _).symm
    · have htaken : readBefore (4 + 1) = readBefore (points (k, c)) := by rw [hfour]; rfl
      rw [htaken]
      exact (Function.update_eq_self _ _).symm

theorem civilRun_round {i : ℕ} (hi : i ≤ 8) :
    CivilRun d (courseState courses fun _ => i) (courseState courses fun _ => i + 1) := by
  have hready : IsRecv i → readBefore i < sentBefore i ∧ readBefore i < sentBefore (i + 1) := by
    rintro (rfl | rfl | rfl | rfl) <;> decide
  refine .head ⟨.handshake .left .left, trivial, step_courseState hi fun h => (hready h).1⟩
    (.head ⟨.handshake .left .right, trivial, step_courseState hi fun h => (hready h).1⟩
    (.head ⟨.handshake .right .left, trivial, step_courseState hi fun h => (hready h).2⟩
    (.single ⟨.handshake .right .right, trivial,
      (step_courseState hi fun h => (hready h).2).trans (congrArg _ (congrArg _ ?_))⟩)))
  funext ⟨k, c⟩
  cases k <;> cases c <;> rfl

/-- All four handshakes run their course before any of them comes to its end. -/
theorem civilRun_course : ∀ i ≤ 9, CivilRun d d.init (courseState courses fun _ => i) := by
  intro i
  induction i with
  | zero => exact fun _ => .refl
  | succ i ih => exact fun hi => (ih (by omega)).trans (civilRun_round (by omega))

theorem step_ended {s : DialState} (hcall : s.calls (k, c) = .running (courseStage (d.ends c) k 9)) :
    d.step s (.handshake k c) = some (inserting crates s k c (d.them k) (d.identity k.other).addr
      (match (s.nodes k).pool.connections[d.them k]? with
        | some _ => .refused (s.nodes k).next
        | none => .inserted (s.nodes k).next)) := by
  simp only [Dialling.step, hcall]
  exact handshake_ended d s k c

/-- A node with one stream in its pool and the other one refused. -/
def crossedNode (d : Dialling crates) (k : Side) : NodeState :=
  ((NodeState.init (d.identity k).peerId).insertPeer crates.toCodec (d.them k)
    (d.identity k.other).addr).insertPeer crates.toCodec (d.them k) (d.identity k.other).addr

/-- Each node has its own stream in its pool, and no Quit has arrived yet. -/
def crossedState (courses : ∀ c, Course (d.ends c)) : DialState where
  nodes := crossedNode d
  calls e := if e.1 = e.2 then .inserted 0 else .refused 1
  sent e := (courses e.2).frames e.1
  taken _ := 4

theorem init_absent (k : Side) :
    (NodeState.init (d.identity k).peerId).pool.connections[d.them k]? = none := by
  simp [NodeState.init, ConnectionPool.new]

theorem insertPeer_init (k : Side) :
    ((NodeState.init (d.identity k).peerId).insertPeer crates.toCodec (d.them k)
      (d.identity k.other).addr).pool.connections[d.them k]? =
      some ⟨(d.identity k.other).addr, 0, none, 0⟩ := by
  rw [insertPeer_of_none _ _ (init_absent k), ConnectionPool.getElem?_insert, if_pos rfl]
  rfl

/-- Each node inserts its own stream and then refuses the other. -/
theorem civilRun_crossed :
    CivilRun d (courseState courses fun _ => 9) (crossedState courses) := by
  have hnext : ∀ k, ((NodeState.init (d.identity k).peerId).insertPeer crates.toCodec (d.them k)
      (d.identity k.other).addr).next = 1 := fun k => (insertPeer_next _ _ _ _).1
  let s₁ := inserting crates (courseState courses fun _ => 9) .left .left (d.them .left)
    (d.identity .right).addr (.inserted 0)
  let s₂ := inserting crates s₁ .right .right (d.them .right) (d.identity .left).addr (.inserted 0)
  let s₃ := inserting crates s₂ .left .right (d.them .left) (d.identity .right).addr (.refused 1)
  let s₄ := inserting crates s₃ .right .left (d.them .right) (d.identity .left).addr (.refused 1)
  have h₁ : d.step (courseState courses fun _ => 9) (.handshake .left .left) = some s₁ := by
    have hn : ((courseState courses fun _ => 9).nodes .left).pool.connections[d.them .left]? = none :=
      init_absent .left
    rw [step_ended rfl, hn]
    rfl
  have h₂ : d.step s₁ (.handshake .right .right) = some s₂ := by
    have hn : (s₁.nodes .right).pool.connections[d.them .right]? = none := init_absent .right
    rw [step_ended rfl, hn]
    rfl
  have h₃ : d.step s₂ (.handshake .left .right) = some s₃ := by
    have hn : (s₂.nodes .left).pool.connections[d.them .left]? = _ := insertPeer_init .left
    have hnext' : (s₂.nodes .left).next = 1 := hnext .left
    rw [step_ended rfl, hn, hnext']
    rfl
  have h₄ : d.step s₃ (.handshake .right .left) = some s₄ := by
    have hn : (s₃.nodes .right).pool.connections[d.them .right]? = _ := insertPeer_init .right
    have hnext' : (s₃.nodes .right).next = 1 := hnext .right
    rw [step_ended rfl, hn, hnext']
    rfl
  have hfinal : s₄ = crossedState courses := by
    simp only [s₄, s₃, s₂, s₁, inserting, DialState.setNode, DialState.setCall, courseState,
      crossedState, DialState.mk.injEq]
    refine ⟨funext fun k => ?_, funext fun kc => ?_, funext fun e => ?_, rfl⟩
    · cases k <;> rfl
    · obtain ⟨k, c⟩ := kc
      cases k <;> cases c <;> rfl
    · exact (courses e.2).take_frames e.1
  exact .head ⟨.handshake .left .left, trivial, h₁⟩
    (.head ⟨.handshake .right .right, trivial, h₂⟩
    (.head ⟨.handshake .left .right, trivial, h₃⟩
    (.single ⟨.handshake .right .left, trivial, hfinal ▸ h₄⟩)))

/-! The Quits. -/

/-- What the task of a stream does by itself the two nodes can do. -/
theorem civilRun_of_taskStep {s : DialState} {stream : StreamId} {u v : NodeState}
    (h : Relation.ReflTransGen (TaskStep crates.toCodec stream) u v) :
    CivilRun d (s.setNode k u) (s.setNode k v) := by
  have hset : ∀ w w' : NodeState, (s.setNode k w).setNode k w' = s.setNode k w' := by
    intro w w'
    simp [DialState.setNode]
  have hself : ∀ w : NodeState, (s.setNode k w).nodes k = w := fun w => Function.update_self _ _ _
  refine h.lift _ fun w w' hstep => ?_
  cases hstep with
  | @poll shuffle quiet step =>
    refine ⟨.poll k stream shuffle, fun n stream' response p heq => ?_, ?_⟩
    · rw [hself] at heq
      exact absurd heq (quiet n stream' response p)
    · have hnode : ((s.setNode k w).nodes k).step crates.toCodec (.poll stream true shuffle) =
          some w' := by rw [hself]; exact step
      rw [Dialling.step, nodeStep, hnode]
      exact congrArg some (hset w w')
  | cancel step =>
    refine ⟨.cancel k stream, trivial, ?_⟩
    rw [Dialling.step, nodeStep, hself, step]
    exact congrArg some (hset w w')

/-- **The Quit of a refusal ends the connection** that was inserted. -/
theorem DialInv.exists_quitted {s : DialState} {stream : StreamId} {peer : PeerInfo}
    (inv : DialInv d courses s) (hq : QuitsWork d)
    (hdec : ∀ p body, crates.rawBytes p = .ok body → crates.fromRawBytes body = .ok p)
    (hcall : s.calls (k, c) = .inserted stream) (href : s.Refused k.other c)
    (htaken : s.taken (k, c) = 4) (htask : (s.nodes k).tasks stream = .reading (d.them k) stream [])
    (hin : (s.nodes k).inbound stream = []) (hopen : (s.nodes k).closed stream = false)
    (hn : (s.nodes k).pool.connections[d.them k]? = some peer)
    (hpeer : peer.readStreamTask = stream) :
    ∃ node, CivilRun d s ((s.take k c).setNode k node) ∧ node.tasks stream = .cancelled := by
  obtain ⟨-, hehlo, -⟩ := (inv.standing k c).reads hcall
  obtain ⟨body, hbody, hlen⟩ := hq.alreadyConnected
  have hframe : (s.frames crates.toCodec k.other c)[s.taken (k, c)]? = some body := by
    have hfour := (courses c).length_frames k.other
    rw [frames, (inv.standing k.other c).sent_of_reached hehlo,
      (inv.standing k.other c).packets_of_refused href, htaken,
      List.getElem?_append_right (by rw [hfour]), hfour]
    simp [encoded, hbody]
  let u : NodeState := { s.nodes k with
    inbound := Function.update (s.nodes k).inbound stream ((s.nodes k).inbound stream ++ frame body) }
  have hdeliver : d.step s (.deliver k c) = some ((s.take k c).setNode k u) := by
    have harrive : (s.nodes k).step crates.toCodec (.arrive stream (frame body)) = some u := by
      rw [NodeState.step, hopen]
      rfl
    simp only [Dialling.step, hcall, hframe]
    exact congrArg (Option.map _) harrive
  obtain ⟨v, hv, hstart, hpool⟩ := exists_start hlen (hdec _ _ hbody) (frame body) [] u htask
    ((Function.update_self _ _ _).trans (by rw [hin, List.nil_append])) rfl
  have hn' : v.pool.connections[d.them k]? = some peer := by
    rw [hpool]
    exact hn
  obtain ⟨w, hw, hcancelled⟩ := exists_cancelled hstart hn' hpeer
  exact ⟨w, .head ⟨.deliver k c, trivial, hdeliver⟩ (civilRun_of_taskStep (hv.trans hw)), hcancelled⟩

theorem crossedNode_facts (hq : QuitsWork d) (k : Side) :
    (crossedNode d k).tasks 0 = .reading (d.them k) 0 [] ∧ (crossedNode d k).inbound 0 = [] ∧
      (crossedNode d k).closed 0 = false ∧
      (crossedNode d k).pool.connections[d.them k]? =
        some ⟨(d.identity k.other).addr, 0, none, 0⟩ := by
  obtain ⟨body, hbody, -⟩ := hq.alreadyConnected
  have hconn := insertPeer_init (d := d) k
  rw [crossedNode, insertPeer_of_some _ hconn hbody]
  refine ⟨?_, ?_, ?_, hconn⟩
  · rw [insertPeer_of_none _ _ (init_absent k)]
    exact tasks_setTask_self (NodeState.init (d.identity k).peerId) 0 _
  · rw [insertPeer_of_none _ _ (init_absent k)]
    rfl
  · rw [insertPeer_of_none _ _ (init_absent k)]
    rfl

/-- **Any two honest nodes that dial each other can cross.** -/
theorem exists_crossed_run (hr : ∀ c, Reliable crates (d.ends c)) (hd : ∀ c, Distinct (d.ends c))
    (hq : QuitsWork d) :
    ∃ labels s, exec d.step d.init labels = some s ∧ Meets d.step (Civil crates) d.init labels ∧
      d.Quiescent s ∧ Crossed s := by
  have courses : ∀ c, Course (d.ends c) := fun c => (exists_course (hr c) (hd c)).some
  have hdec := (hr .left).decodes
  have hrun : CivilRun d d.init (crossedState courses) :=
    (civilRun_course 9 (le_refl 9)).trans civilRun_crossed
  have inv := (DialInv.init d courses).run hq hdec hrun
  obtain ⟨htask, hin, hopen, hn⟩ := crossedNode_facts hq .left
  obtain ⟨u, hu, hcancel⟩ := inv.exists_quitted (k := .left) (c := .left) hq hdec rfl ⟨1, rfl⟩ rfl
    htask hin hopen hn rfl
  obtain ⟨htask', hin', hopen', hn'⟩ := crossedNode_facts hq .right
  obtain ⟨v, hv, hcancel'⟩ := (inv.run hq hdec hu).exists_quitted (k := .right) (c := .right) hq
    hdec rfl ⟨1, rfl⟩ rfl htask' hin' hopen' hn' rfl
  obtain ⟨labels, hexec, hcivil⟩ := exists_exec_of_permitted (hrun.trans (hu.trans hv))
  refine ⟨labels, _, hexec, hcivil, fun k c => ?_, .left, ⟨0, rfl⟩, ⟨1, rfl⟩, ⟨0, rfl⟩, ⟨1, rfl⟩⟩
  -- both read tasks are dropped, and the other two ends are refused
  cases k <;> cases c
  · intro halive
    have hdead : u.tasks 0 = .cancelled := hcancel
    exact absurd (hdead ▸ halive) (by simp [ReadTask.isAlive])
  · trivial
  · trivial
  · intro halive
    have hdead : v.tasks 0 = .cancelled := hcancel'
    exact absurd (hdead ▸ halive) (by simp [ReadTask.isAlive])

end Run

/-- **Dialling converges unless it crosses.**  Two honest nodes dial each other.
In whatever order the handshakes, the read tasks and everything else they send
each other have taken their steps, once nothing is left to do either both pools
hold the other node over the same stream, or neither pool holds the other node at
all; and the latter happens exactly when each node has inserted one stream and
refused the other late, crosswise. -/
theorem dialling_converges_unless_crossed (crates : Crates Bytes PrivateKey Seed)
    (d : Dialling crates) (hr : ∀ c, Reliable crates (d.ends c)) (hd : ∀ c, Distinct (d.ends c))
    (hq : QuitsWork d) (labels : List DialLabel) (s : DialState)
    (hrun : exec d.step d.init labels = some s) (hcivil : Meets d.step (Civil crates) d.init labels)
    (hquiet : d.Quiescent s) :
    (¬ Crossed s ∧ ∃ c, ∀ k, d.HoldsOver s k c) ∨
      (Crossed s ∧ ∀ k, (s.nodes k).pool.connections[d.them k]? = none) := by
  have courses : ∀ c, Course (d.ends c) := fun c => (exists_course (hr c) (hd c)).some
  have inv : DialInv d courses s :=
    invariant_of_meets (fun s l t inv hl hstep => inv.step hq (hr .left).decodes hl hstep) hcivil
      hrun (.init d courses)
  exact inv.outcome hquiet

/-! ### A pair of nodes -/

/-- Every error of a handshake, up to what its Quit does not tell. -/
def someErrors : List HandshakeError :=
  [.unsupportedVersion, .unexpectedPacket, .invalidAesKeyLenght, .invalidNonce, .invalidNonceCopy,
    .packetTooLarge, .alreadyConnected, .samePeer, .identityMismatch, .peerQuitted quitReceived,
    .protocolError ⟨""⟩, .rsaError ⟨""⟩, .ioError ⟨""⟩, .streamReunitionFailure ⟨""⟩]

/-- Every packet that the two nodes can send. -/
def dialPackets : List Packet :=
  pairPackets ++ [.quit alreadyConnected, .quit quitReceived] ++
    someErrors.map fun e => .quit e.toQuit

/-- The pair of nodes, each dialling the other. -/
def dialPair : Dialling (pairCrates dialPackets) where
  identity k := (pairEnds dialPackets k).identity
  expectedPeerId _ _ := none
  draws k _ := (pairEnds dialPackets k).draws

theorem toQuit_mem_dialPackets (e : HandshakeError) : .quit e.toQuit ∈ dialPackets := by
  refine List.mem_append_right _ (List.mem_map.mpr ?_)
  cases e <;> simp [someErrors, HandshakeError.toQuit, HandshakeError.reasonCode,
    HandshakeError.reportFault]

theorem dialPair_reliable (c : Side) : Reliable (pairCrates dialPackets) (dialPair.ends c) :=
  pair_reliable (fun _ h => List.mem_append_left _ (List.mem_append_left _ h)) (by decide)

theorem dialPair_distinct (c : Side) : Distinct (dialPair.ends c) :=
  pair_distinct dialPackets

theorem dialPair_quitsWork : QuitsWork dialPair where
  ofError e := by
    obtain ⟨body, hbody, hlen⟩ := pair_encodes (toQuit_mem_dialPackets e)
    exact ⟨body, hbody, by rw [hlen]; decide⟩
  alreadyConnected := by
    have hmem : .quit Tewta.alreadyConnected ∈ dialPackets := by simp [dialPackets]
    obtain ⟨body, hbody, hlen⟩ := pair_encodes hmem
    exact ⟨body, hbody, by rw [hlen]; decide⟩
  quitReceived := by
    have hmem : .quit Tewta.quitReceived ∈ dialPackets := by simp [dialPackets]
    obtain ⟨body, hbody, hlen⟩ := pair_encodes hmem
    exact ⟨body, hbody, by rw [hlen]; decide⟩
  clear k e body hbody := by
    -- one byte is too short to be marked with a key
    obtain ⟨body', hbody', hlen⟩ := pair_encodes (toQuit_mem_dialPackets e)
    obtain rfl : body = body' := Except.ok.inj (hbody.symm.trans hbody')
    have hnot : ¬ (PeerID.hashedString (pairKey k)).isPrefixOf body = true := by
      intro hprefix
      have hle := (List.isPrefixOf_iff_prefix.mp hprefix).length_le
      rw [pair_hashedString_length, hlen] at hle
      omega
    exact ⟨⟨"decryption error"⟩, if_neg hnot⟩

/-- The pair ends up without any connection. -/
theorem crossed_dialling :
    ∃ labels s, exec dialPair.step dialPair.init labels = some s ∧ dialPair.Quiescent s ∧
      ∀ k, (s.nodes k).pool.connections[dialPair.them k]? = none := by
  obtain ⟨labels, s, hrun, hcivil, hquiet, hcrossed⟩ :=
    exists_crossed_run dialPair_reliable dialPair_distinct dialPair_quitsWork
  have courses : ∀ c, Course (dialPair.ends c) :=
    fun c => (exists_course (dialPair_reliable c) (dialPair_distinct c)).some
  have inv : DialInv dialPair courses s :=
    invariant_of_meets (fun s l t inv hl hstep => inv.step dialPair_quitsWork
      (dialPair_reliable .left).decodes hl hstep) hcivil hrun (.init dialPair courses)
  rcases inv.outcome hquiet with ⟨hnot, -⟩ | ⟨-, hnone⟩
  · exact absurd hcrossed hnot
  · exact ⟨labels, s, hrun, hquiet, hnone⟩

/-- The run in which the pair crosses. -/
theorem dialling_converges_unless_crossed_pair :
    ∃ labels s, exec dialPair.step dialPair.init labels = some s ∧
      Meets dialPair.step (Civil (pairCrates dialPackets)) dialPair.init labels ∧
      dialPair.Quiescent s ∧ ((¬ Crossed s ∧ ∃ c, ∀ k, dialPair.HoldsOver s k c) ∨
        (Crossed s ∧ ∀ k, (s.nodes k).pool.connections[dialPair.them k]? = none)) := by
  obtain ⟨labels, s, hrun, hcivil, hquiet, -⟩ :=
    exists_crossed_run dialPair_reliable dialPair_distinct dialPair_quitsWork
  exact ⟨labels, s, hrun, hcivil, hquiet, dialling_converges_unless_crossed
    (pairCrates dialPackets) dialPair dialPair_reliable dialPair_distinct dialPair_quitsWork labels s
    hrun hcivil hquiet⟩

end Tewta
