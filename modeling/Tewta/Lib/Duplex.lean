import Mathlib.Data.Fintype.Basic
import Mathlib.Logic.Function.Basic
import Tewta.Lib.Transition

/-!
# Two processes and two queues

Two processes talk over a pair of first-in first-out queues.  In each of its
states a process does one thing: it writes an element, reads one, takes a step
of its own, or has halted (`Action`).  A label is the side whose turn it is.

What one side does never depends on when the other moves, so steps of the two
sides commute (`commutes`), and with `Transition.exec_of_final` one run to the
end decides all of them.  Such a run is put together from `exchange`: both sides
write a string, then both read what the other wrote.
-/

namespace Duplex

open Transition

/-- What a process does in a state. -/
inductive Action (β σ : Type*)
  | write (b : β) (next : σ)
  | read (next : β → σ)
  | internal (next : σ)
  | halt

inductive Side
  | left
  | right
  deriving DecidableEq

instance : Fintype Side := ⟨{.left, .right}, fun k => by cases k <;> simp⟩

def Side.other : Side → Side
  | .left => .right
  | .right => .left

@[simp] theorem Side.other_other (k : Side) : k.other.other = k := by cases k <;> rfl

theorem Side.other_ne (k : Side) : k.other ≠ k := by cases k <;> decide

theorem Side.ne_other (k : Side) : k ≠ k.other := by cases k <;> decide

theorem Side.eq_other {k l : Side} (h : k ≠ l) : l = k.other := by
  cases k <;> cases l <;> first | rfl | exact absurd rfl h

/-- What holds of a side and of the other holds of both. -/
theorem Side.both {P : Side → Prop} (k : Side) (hk : P k) (hother : P k.other) (l : Side) :
    P l := by
  by_cases hl : k = l
  · exact hl ▸ hk
  · exact Side.eq_other hl ▸ hother

/-- The state of each side, and the queue that leads to it. -/
@[ext] structure Pair (β σ : Type*) where
  state : Side → σ
  queue : Side → List β

variable {β σ : Type*} (act : Side → σ → Action β σ)

/-- One step of one side. -/
def step (s : Pair β σ) (k : Side) : Option (Pair β σ) :=
  match act k (s.state k) with
  | .write b next => some ⟨Function.update s.state k next,
      Function.update s.queue k.other (s.queue k.other ++ [b])⟩
  | .read next =>
    match s.queue k with
    | [] => none
    | b :: rest => some ⟨Function.update s.state k (next b), Function.update s.queue k rest⟩
  | .internal next => some ⟨Function.update s.state k next, s.queue⟩
  | .halt => none

variable {act}

/-- What a step of one side does: it changes that side's state, takes at most
one element from the queue that leads to it and appends to the other queue. -/
theorem step_eq_some {s t : Pair β σ} {k : Side} (h : step act s k = some t) :
    (∃ b next, act k (s.state k) = .write b next ∧
      t = ⟨Function.update s.state k next,
        Function.update s.queue k.other (s.queue k.other ++ [b])⟩) ∨
    (∃ b rest next, act k (s.state k) = .read next ∧ s.queue k = b :: rest ∧
      t = ⟨Function.update s.state k (next b), Function.update s.queue k rest⟩) ∨
    (∃ next, act k (s.state k) = .internal next ∧
      t = ⟨Function.update s.state k next, s.queue⟩) := by
  rw [step] at h
  cases ha : act k (s.state k) with
  | write b next =>
    rw [ha] at h
    exact Or.inl ⟨b, next, rfl, (Option.some.inj h).symm⟩
  | read next =>
    rw [ha] at h
    cases hq : s.queue k with
    | nil => simp [hq] at h
    | cons b rest =>
      simp only [hq, Option.some.injEq] at h
      exact Or.inr (Or.inl ⟨b, rest, next, rfl, rfl, h.symm⟩)
  | internal next =>
    rw [ha] at h
    exact Or.inr (Or.inr ⟨next, rfl, (Option.some.inj h).symm⟩)
  | halt =>
    rw [ha] at h
    cases h

theorem step_write {s : Pair β σ} {k : Side} {b : β} {next : σ}
    (h : act k (s.state k) = .write b next) :
    step act s k = some ⟨Function.update s.state k next,
      Function.update s.queue k.other (s.queue k.other ++ [b])⟩ := by
  rw [step, h]

theorem step_read {s : Pair β σ} {k : Side} {b : β} {rest : List β} {next : β → σ}
    (h : act k (s.state k) = .read next) (hq : s.queue k = b :: rest) :
    step act s k = some ⟨Function.update s.state k (next b), Function.update s.queue k rest⟩ := by
  rw [step, h]
  simp only [hq]

theorem step_internal {s : Pair β σ} {k : Side} {next : σ}
    (h : act k (s.state k) = .internal next) :
    step act s k = some ⟨Function.update s.state k next, s.queue⟩ := by
  rw [step, h]

/-- **Steps of the two sides commute.** -/
theorem commutes : Commutes (step act) := by
  intro s k l t u hkl ht hu
  obtain rfl := Side.eq_other hkl
  have hk : k ≠ k.other := Side.ne_other k
  have hk' : k.other ≠ k := Side.other_ne k
  rcases step_eq_some ht with ⟨b, x, ha, rfl⟩ | ⟨b, rest, x, ha, hq, rfl⟩ | ⟨x, ha, rfl⟩ <;>
    rcases step_eq_some hu with ⟨c, y, hb, rfl⟩ | ⟨c, rest', y, hb, hq', rfl⟩ | ⟨y, hb, rfl⟩ <;>
    simp_all [step, Function.update_comm]

/-- The states an action can lead to have a property. -/
def Action.Leads (P : σ → Prop) : Action β σ → Prop
  | .write _ next => P next
  | .read next => ∀ b, P (next b)
  | .internal next => P next
  | .halt => True

theorem Action.Leads.step {P : σ → Prop} {s t : Pair β σ} {k : Side}
    (hleads : (act k (s.state k)).Leads P) (h : step act s k = some t) : P (t.state k) := by
  rcases step_eq_some h with ⟨b, next, ha, rfl⟩ | ⟨b, rest, next, ha, -, rfl⟩ | ⟨next, ha, rfl⟩
  · rw [ha] at hleads
    have hnext : P next := hleads
    simpa only [Function.update_self] using hnext
  · rw [ha] at hleads
    simpa only [Function.update_self] using hleads b
  · rw [ha] at hleads
    have hnext : P next := hleads
    simpa only [Function.update_self] using hnext

theorem state_other {s t : Pair β σ} {k l : Side} (h : step act s k = some t) (hkl : l ≠ k) :
    t.state l = s.state l := by
  rcases step_eq_some h with ⟨b, x, -, rfl⟩ | ⟨b, rest, x, -, -, rfl⟩ | ⟨x, -, rfl⟩ <;>
    exact Function.update_of_ne hkl _ _

/-- A step depends on what its side does in its state, and on nothing else of the processes. -/
theorem step_congr {act' : Side → σ → Action β σ} {s : Pair β σ} {k : Side}
    (h : act k (s.state k) = act' k (s.state k)) : step act s k = step act' s k := by
  rw [step, step, h]

theorem state_eq_of_halt {s t : Pair β σ} {ls : List Side} {k : Side}
    (h : act k (s.state k) = .halt) (hr : exec (step act) s ls = some t) :
    t.state k = s.state k := by
  induction ls generalizing s with
  | nil =>
    cases hr
    rfl
  | cons l ls ih =>
    obtain ⟨u, hu, hr⟩ := exec_cons_eq_some.mp hr
    have hkl : k ≠ l := by
      rintro rfl
      rw [step, h] at hu
      cases hu
    have hstate : u.state k = s.state k := by
      rcases step_eq_some hu with ⟨b, x, -, rfl⟩ | ⟨b, rest, x, -, -, rfl⟩ | ⟨x, -, rfl⟩ <;>
        exact Function.update_of_ne hkl _ _
    rw [ih (by rwa [hstate]) hr, hstate]

theorem final_of_halt {s : Pair β σ} (h : ∀ k, act k (s.state k) = .halt) :
    Final (step act) s := fun k => by rw [step, h k]

/-! ### Writing and reading strings -/

/-- From `x` a process writes a string and gets to `y`. -/
inductive Writes (act : σ → Action β σ) : σ → List β → σ → Prop
  | done (x : σ) : Writes act x [] x
  | internal {x y z : σ} {bs : List β} (h : act x = .internal y) (hw : Writes act y bs z) :
      Writes act x bs z
  | write {x y z : σ} {b : β} {bs : List β} (h : act x = .write b y) (hw : Writes act y bs z) :
      Writes act x (b :: bs) z

/-- From `x` a process reads a string and gets to `y`. -/
inductive Reads (act : σ → Action β σ) : σ → List β → σ → Prop
  | done (x : σ) : Reads act x [] x
  | internal {x y z : σ} {bs : List β} (h : act x = .internal y) (hr : Reads act y bs z) :
      Reads act x bs z
  | read {x z : σ} {next : β → σ} {b : β} {bs : List β} (h : act x = .read next)
      (hr : Reads act (next b) bs z) : Reads act x (b :: bs) z

theorem Writes.trans {act : σ → Action β σ} {x y z : σ} {bs cs : List β} (h : Writes act x bs y)
    (h' : Writes act y cs z) : Writes act x (bs ++ cs) z := by
  induction h with
  | done x => exact h'
  | internal h _ ih => exact .internal h (ih h')
  | write h _ ih => exact .write h (ih h')

theorem exec_of_writes {k : Side} {x y : σ} {bs : List β} (h : Writes (act k) x bs y)
    {s : Pair β σ} (hs : s.state k = x) :
    ∃ ls t, exec (step act) s ls = some t ∧ t.state = Function.update s.state k y ∧
      t.queue = Function.update s.queue k.other (s.queue k.other ++ bs) := by
  induction h generalizing s with
  | done x =>
    subst hs
    exact ⟨[], s, rfl, by simp, by simp⟩
  | internal h _ ih =>
    subst hs
    obtain ⟨ls, t, hls, hstate, hqueue⟩ := ih (s := ⟨Function.update s.state k _, s.queue⟩)
      (Function.update_self _ _ _)
    exact ⟨k :: ls, t, exec_cons_eq_some.mpr ⟨_, step_internal h, hls⟩, by simp [hstate],
      by simp [hqueue]⟩
  | write h _ ih =>
    subst hs
    obtain ⟨ls, t, hls, hstate, hqueue⟩ := ih (s := ⟨Function.update s.state k _,
      Function.update s.queue k.other (s.queue k.other ++ [_])⟩) (Function.update_self _ _ _)
    exact ⟨k :: ls, t, exec_cons_eq_some.mpr ⟨_, step_write h, hls⟩, by simp [hstate],
      by simp [hqueue]⟩

theorem exec_of_reads {k : Side} {x y : σ} {bs : List β} (h : Reads (act k) x bs y)
    {s : Pair β σ} (hs : s.state k = x) (rest : List β) (hq : s.queue k = bs ++ rest) :
    ∃ ls t, exec (step act) s ls = some t ∧ t.state = Function.update s.state k y ∧
      t.queue = Function.update s.queue k rest := by
  induction h generalizing s with
  | done x =>
    subst hs
    have hrest : s.queue k = rest := hq
    exact ⟨[], s, rfl, by simp, by simp [← hrest]⟩
  | internal h _ ih =>
    subst hs
    obtain ⟨ls, t, hls, hstate, hqueue⟩ := ih (s := ⟨Function.update s.state k _, s.queue⟩)
      (Function.update_self _ _ _) hq
    exact ⟨k :: ls, t, exec_cons_eq_some.mpr ⟨_, step_internal h, hls⟩, by simp [hstate], hqueue⟩
  | read h _ ih =>
    subst hs
    obtain ⟨ls, t, hls, hstate, hqueue⟩ := ih
      (s := ⟨Function.update s.state k _, Function.update s.queue k _⟩)
      (Function.update_self _ _ _) (Function.update_self _ _ _)
    exact ⟨k :: ls, t, exec_cons_eq_some.mpr ⟨_, step_read h hq, hls⟩, by simp [hstate],
      by simp [hqueue]⟩

/-- **An exchange.**  Over empty queues, each side writes a string and then
reads what the other one wrote. -/
theorem exchange {x y z : Side → σ} {bs : Side → List β}
    (hw : ∀ k, Writes (act k) (x k) (bs k) (y k))
    (hr : ∀ k, Reads (act k) (y k) (bs k.other) (z k)) :
    ∃ ls, exec (step act) ⟨x, fun _ => []⟩ ls = some ⟨z, fun _ => []⟩ := by
  obtain ⟨l₁, t₁, h₁, hs₁, hq₁⟩ := exec_of_writes (hw .left) (s := ⟨x, fun _ => []⟩) rfl
  obtain ⟨l₂, t₂, h₂, hs₂, hq₂⟩ := exec_of_writes (hw .right) (s := t₁) (by simp [hs₁])
  obtain ⟨l₃, t₃, h₃, hs₃, hq₃⟩ := exec_of_reads (hr .left) (s := t₂)
    (by simp [hs₂, hs₁]) [] (by simp [hq₂, hq₁, Side.other])
  obtain ⟨l₄, t₄, h₄, hs₄, hq₄⟩ := exec_of_reads (hr .right) (s := t₃)
    (by simp [hs₃, hs₂]) [] (by simp [hq₃, hq₂, hq₁, Side.other])
  have hfin : t₄ = ⟨z, fun _ => []⟩ := by
    refine Pair.ext (funext fun k => ?_) (funext fun k => ?_)
    · cases k <;> simp [hs₄, hs₃]
    · cases k <;> simp [hq₄, hq₃]
  refine ⟨l₁ ++ (l₂ ++ (l₃ ++ l₄)), ?_⟩
  rw [exec_append_of h₁, exec_append_of h₂, exec_append_of h₃, h₄, hfin]

theorem exec_internal {x y : Side → σ} (h : ∀ k, act k (x k) = .internal (y k)) :
    ∃ ls, exec (step act) ⟨x, fun _ => []⟩ ls = some ⟨y, fun _ => []⟩ :=
  exchange (fun k => .done (x k)) (fun k => .internal (h k) (.done (y k)))

/-! ### A process that becomes another -/

section Map

variable {τ : Type*} {f : σ → τ}

/-- The same action, with the states it leads to renamed. -/
def Action.map (f : σ → τ) : Action β σ → Action β τ
  | .write b next => .write b (f next)
  | .read next => .read fun b => f (next b)
  | .internal next => .internal (f next)
  | .halt => .halt

def Pair.map (f : σ → τ) (s : Pair β σ) : Pair β τ := ⟨fun k => f (s.state k), s.queue⟩

theorem map_update (k : Side) (x : Side → σ) (y : σ) :
    (fun l => f (Function.update x k y l)) = Function.update (fun l => f (x l)) k (f y) :=
  funext fun l => Function.apply_update (fun _ => f) x k y l

/-- A process that does what another does for as long as that has not halted.
`act'` goes on on its own where `act` halts. -/
def Continues (f : σ → τ) (act : σ → Action β σ) (act' : τ → Action β τ) : Prop :=
  ∀ x, act x ≠ .halt → act' (f x) = (act x).map f

theorem Continues.eq_map {act : σ → Action β σ} {act' : τ → Action β τ} (h : Continues f act act')
    {x : σ} {a : Action β σ} (ha : act x = a) (hne : a ≠ .halt) : act' (f x) = a.map f := by
  rw [h x (by rwa [ha]), ha]

theorem Continues.writes {act : σ → Action β σ} {act' : τ → Action β τ} (h : Continues f act act')
    {x y : σ} {bs : List β} (hw : Writes act x bs y) : Writes act' (f x) bs (f y) := by
  induction hw with
  | done x => exact .done _
  | internal hx _ ih => exact .internal (h.eq_map hx (by simp)) ih
  | write hx _ ih => exact .write (h.eq_map hx (by simp)) ih

theorem Continues.reads {act : σ → Action β σ} {act' : τ → Action β τ} (h : Continues f act act')
    {x y : σ} {bs : List β} (hr : Reads act x bs y) : Reads act' (f x) bs (f y) := by
  induction hr with
  | done x => exact .done _
  | internal hx _ ih => exact .internal (h.eq_map hx (by simp)) ih
  | read hx _ ih => exact .read (h.eq_map hx (by simp)) ih

/-- **What two processes do, two that continue them do as well.** -/
theorem exec_map {act' : Side → τ → Action β τ} (h : ∀ k, Continues f (act k) (act' k))
    {s t : Pair β σ} {ls : List Side} (hr : exec (step act) s ls = some t) :
    exec (step act') (s.map f) ls = some (t.map f) := by
  induction ls generalizing s with
  | nil =>
    cases hr
    rfl
  | cons k ls ih =>
    obtain ⟨u, hu, hr⟩ := exec_cons_eq_some.mp hr
    refine exec_cons_eq_some.mpr ⟨u.map f, ?_, ih hr⟩
    rcases step_eq_some hu with ⟨b, next, ha, rfl⟩ | ⟨b, rest, next, ha, hq, rfl⟩ | ⟨next, ha, rfl⟩
    · have ha' : act' k ((s.map f).state k) = .write b (f next) := (h k).eq_map ha (by simp)
      rw [step_write ha', Pair.map, Pair.map, map_update]
    · have ha' : act' k ((s.map f).state k) = .read fun b => f (next b) :=
        (h k).eq_map ha (by simp)
      rw [step_read ha' (by rw [Pair.map, hq]), Pair.map, Pair.map, map_update]
    · have ha' : act' k ((s.map f).state k) = .internal (f next) := (h k).eq_map ha (by simp)
      rw [step_internal ha', Pair.map, Pair.map, map_update]

end Map

end Duplex
