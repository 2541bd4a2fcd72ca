import Mathlib.Data.List.Basic
import Mathlib.Logic.Relation

/-!
# Machines that take labelled steps

A machine is a partial function `step : σ → ℓ → Option σ`: a state takes the
step a label names, or refuses it.  `exec` reads a list of labels in order, so
`exec step s ls = some t` is a run from `s` to `t`.

Two things are said about the states and steps along a run.  `Meets ok` asks
that every step it takes satisfies `ok`, a condition on the state before the
step and the label.  `Always P` asks that every state it visits satisfies `P`.
`always_of_meets` is the induction that gets the second from the first by way
of an invariant, and `always_iff_meets` is the two-way form: when a step that
breaks `ok` lands outside `P`, the runs that stay inside `P` are exactly the
ones that meet `ok`.  `outputs` is what the steps of a run put out.

`length_le_of_final` is about machines whose steps commute.  If any two
different steps a state can take can be taken in either order, with the same
result, then one run into a state with no step left decides every other run:
it is no longer, and it can be completed to the same state.
-/

namespace Transition

universe u v

variable {σ : Type u} {ℓ : Type v} {step : σ → ℓ → Option σ}

/-- Read the labels in order. -/
def exec (step : σ → ℓ → Option σ) : σ → List ℓ → Option σ
  | s, [] => some s
  | s, l :: ls => (step s l).bind (exec step · ls)

@[simp] theorem exec_nil (s : σ) : exec step s [] = some s := rfl

theorem exec_cons (s : σ) (l : ℓ) (ls : List ℓ) :
    exec step s (l :: ls) = (step s l).bind (exec step · ls) := rfl

theorem exec_cons_eq_some {s u : σ} {l : ℓ} {ls : List ℓ} :
    exec step s (l :: ls) = some u ↔ ∃ t, step s l = some t ∧ exec step t ls = some u := by
  rw [exec_cons, Option.bind_eq_some_iff]

theorem exec_append (s : σ) (ls ms : List ℓ) :
    exec step s (ls ++ ms) = (exec step s ls).bind (exec step · ms) := by
  induction ls generalizing s with
  | nil => rfl
  | cons l ls ih =>
    rw [List.cons_append, exec_cons, exec_cons, Option.bind_assoc]
    exact congrArg _ (funext fun t => ih t)

theorem exec_append_of {s t : σ} {ls ms : List ℓ} (h : exec step s ls = some t) :
    exec step s (ls ++ ms) = exec step t ms := by
  rw [exec_append, h, Option.bind_some]

theorem exec_singleton (s : σ) (l : ℓ) : exec step s [l] = step s l := by
  rw [exec_cons]
  cases step s l <;> rfl

/-! ### Conditions along a run -/

/-- Every step along the labels meets `ok`, a condition on the state before it. -/
def Meets (step : σ → ℓ → Option σ) (ok : σ → ℓ → Prop) : σ → List ℓ → Prop
  | _, [] => True
  | s, l :: ls => ok s l ∧ ∀ t, step s l = some t → Meets step ok t ls

/-- Every state visited along the labels satisfies `P`, the first and the last included. -/
def Always (step : σ → ℓ → Option σ) (P : σ → Prop) : σ → List ℓ → Prop
  | s, [] => P s
  | s, l :: ls => P s ∧ ∀ t, step s l = some t → Always step P t ls

theorem Always.head {P : σ → Prop} {s : σ} {ls : List ℓ} (h : Always step P s ls) : P s := by
  cases ls with
  | nil => exact h
  | cons l ls => exact h.1

theorem Always.last {P : σ → Prop} {s t : σ} {ls : List ℓ} (h : Always step P s ls)
    (hr : exec step s ls = some t) : P t := by
  induction ls generalizing s with
  | nil => cases hr; exact h
  | cons l ls ih =>
    obtain ⟨u, hu, hr⟩ := exec_cons_eq_some.mp hr
    exact ih (h.2 u hu) hr

theorem Meets.append_left {ok : σ → ℓ → Prop} {s : σ} {ls ms : List ℓ}
    (h : Meets step ok s (ls ++ ms)) : Meets step ok s ls := by
  induction ls generalizing s with
  | nil => trivial
  | cons l ls ih => exact ⟨h.1, fun t ht => ih (h.2 t ht)⟩

theorem Meets.append_right {ok : σ → ℓ → Prop} {s t : σ} {ls ms : List ℓ}
    (h : Meets step ok s (ls ++ ms)) (hr : exec step s ls = some t) : Meets step ok t ms := by
  induction ls generalizing s with
  | nil =>
    cases hr
    exact h
  | cons l ls ih =>
    obtain ⟨u, hu, hr⟩ := exec_cons_eq_some.mp hr
    exact ih (h.2 u hu) hr

theorem Meets.append {ok : σ → ℓ → Prop} {s t : σ} {ls ms : List ℓ} (h : Meets step ok s ls)
    (hr : exec step s ls = some t) (h' : Meets step ok t ms) : Meets step ok s (ls ++ ms) := by
  induction ls generalizing s with
  | nil =>
    cases hr
    exact h'
  | cons l ls ih =>
    obtain ⟨u, hu, hr⟩ := exec_cons_eq_some.mp hr
    refine ⟨h.1, fun v hv => ?_⟩
    rw [hu] at hv
    cases hv
    exact ih (h.2 u hu) hr

/-- Two runs that meet a condition, one after the other. -/
theorem exec_meets_append {ok : σ → ℓ → Prop} {s t u : σ} {ls ms : List ℓ}
    (h : exec step s ls = some t ∧ Meets step ok s ls)
    (h' : exec step t ms = some u ∧ Meets step ok t ms) :
    exec step s (ls ++ ms) = some u ∧ Meets step ok s (ls ++ ms) :=
  ⟨(exec_append_of h.1).trans h'.1, h.2.append h.1 h'.2⟩

theorem Meets.and {ok ok' : σ → ℓ → Prop} {s : σ} {ls : List ℓ} (h : Meets step ok s ls)
    (h' : Meets step ok' s ls) : Meets step (fun s l => ok s l ∧ ok' s l) s ls := by
  induction ls generalizing s with
  | nil => trivial
  | cons l ls ih => exact ⟨⟨h.1, h'.1⟩, fun t ht => ih (h.2 t ht) (h'.2 t ht)⟩

theorem meets_cons {ok : σ → ℓ → Prop} {s t : σ} {l : ℓ} {ls : List ℓ} (h : step s l = some t) :
    Meets step ok s (l :: ls) ↔ ok s l ∧ Meets step ok t ls := by
  refine and_congr_right fun _ => ⟨fun hall => hall t h, fun ht u hu => ?_⟩
  rw [h] at hu
  cases hu
  exact ht

/-- Conditions that can be decided can be decided along a run. -/
instance decidableMeets {ok : σ → ℓ → Prop} [∀ s l, Decidable (ok s l)] :
    ∀ (s : σ) (ls : List ℓ), Decidable (Meets step ok s ls)
  | _, [] => isTrue trivial
  | s, l :: ls =>
    match h : step s l with
    | none => decidable_of_iff (ok s l)
        ⟨fun hok => ⟨hok, fun t ht => by rw [h] at ht; cases ht⟩, And.left⟩
    | some t =>
      haveI : Decidable (Meets step ok t ls) := decidableMeets t ls
      decidable_of_iff (ok s l ∧ Meets step ok t ls) (meets_cons h).symm

/-- Labels that every state permits. -/
theorem meets_of_forall {ok : σ → ℓ → Prop} {s : σ} {ls : List ℓ} (h : ∀ l ∈ ls, ∀ s, ok s l) :
    Meets step ok s ls := by
  induction ls generalizing s with
  | nil => trivial
  | cons l ls ih =>
    obtain ⟨hl, hls⟩ := List.forall_mem_cons.mp h
    exact ⟨hl s, fun _ _ => ih hls⟩

theorem meets_of_invariant {I : σ → Prop} {ok : σ → ℓ → Prop}
    (hstep : ∀ s l t, I s → step s l = some t → I t) {s : σ} {ls : List ℓ}
    (h : ∀ l ∈ ls, ∀ s, I s → ok s l) (hs : I s) : Meets step ok s ls := by
  induction ls generalizing s with
  | nil => trivial
  | cons l ls ih =>
    obtain ⟨hl, hls⟩ := List.forall_mem_cons.mp h
    exact ⟨hl s hs, fun t ht => ih hls (hstep s l t hs ht)⟩

/-- **The invariant rule.**  What every permitted step keeps holds at the end of
a run whose steps are all permitted. -/
theorem invariant_of_meets {I : σ → Prop} {ok : σ → ℓ → Prop}
    (hstep : ∀ s l t, I s → ok s l → step s l = some t → I t)
    {s t : σ} {ls : List ℓ} (h : Meets step ok s ls) (hr : exec step s ls = some t) (hs : I s) :
    I t := by
  induction ls generalizing s with
  | nil => cases hr; exact hs
  | cons l ls ih =>
    obtain ⟨u, hu, hr⟩ := exec_cons_eq_some.mp hr
    exact ih (h.2 u hu) hr (hstep s l u hs h.1 hu)

theorem invariant_of_exec {I : σ → Prop} (hstep : ∀ s l t, I s → step s l = some t → I t)
    {s t : σ} {ls : List ℓ} (hr : exec step s ls = some t) (hs : I s) : I t := by
  induction ls generalizing s with
  | nil => cases hr; exact hs
  | cons l ls ih =>
    obtain ⟨u, hu, hr⟩ := exec_cons_eq_some.mp hr
    exact ih hr (hstep s l u hs hu)

/-- A step that is permitted, whatever its label. -/
def Permitted (step : σ → ℓ → Option σ) (ok : σ → ℓ → Prop) (s t : σ) : Prop :=
  ∃ l, ok s l ∧ step s l = some t

theorem exists_exec_of_permitted {ok : σ → ℓ → Prop} {s t : σ}
    (h : Relation.ReflTransGen (Permitted step ok) s t) :
    ∃ ls, exec step s ls = some t ∧ Meets step ok s ls := by
  induction h using Relation.ReflTransGen.head_induction_on with
  | refl => exact ⟨[], rfl, trivial⟩
  | head hstep _ ih =>
    obtain ⟨l, hok, hl⟩ := hstep
    obtain ⟨ls, hexec, hmeets⟩ := ih
    refine ⟨l :: ls, exec_cons_eq_some.mpr ⟨_, hl, hexec⟩, hok, fun u hu => ?_⟩
    rw [hl] at hu
    cases hu
    exact hmeets

/-- **What becomes true on the way becomes true in a step.** -/
theorem exists_step_of_exec {P : σ → Prop} {s t : σ} {ls : List ℓ} (hr : exec step s ls = some t)
    (hs : ¬ P s) (ht : P t) : ∃ pre l post u v, ls = pre ++ l :: post ∧
      exec step s pre = some u ∧ ¬ P u ∧ step u l = some v ∧ P v ∧ exec step v post = some t := by
  induction ls generalizing s with
  | nil =>
    cases hr
    exact absurd ht hs
  | cons l ls ih =>
    obtain ⟨u, hu, hr⟩ := exec_cons_eq_some.mp hr
    by_cases hP : P u
    · exact ⟨[], l, ls, s, u, rfl, rfl, hs, hu, hP, hr⟩
    · obtain ⟨pre, m, post, v, w, rfl, hpre, hv, hm, hw, hpost⟩ := ih hr hP
      exact ⟨l :: pre, m, post, v, w, rfl, exec_cons_eq_some.mpr ⟨u, hu, hpre⟩, hv, hm, hw, hpost⟩

theorem always_of_meets {I P : σ → Prop} {ok : σ → ℓ → Prop}
    (hstep : ∀ s l t, I s → ok s l → step s l = some t → I t) (hP : ∀ s, I s → P s)
    {s : σ} {ls : List ℓ} (h : Meets step ok s ls) (hs : I s) : Always step P s ls := by
  induction ls generalizing s with
  | nil => exact hP s hs
  | cons l ls ih =>
    exact ⟨hP s hs, fun t ht => ih (h.2 t ht) (hstep s l t hs h.1 ht)⟩

/-- **A run stays inside `P` exactly when its steps meet `ok`**, provided the
invariant `I` gives `P`, permitted steps keep `I`, and a step that is not
permitted lands outside `P`. -/
theorem always_iff_meets {I P : σ → Prop} {ok : σ → ℓ → Prop}
    (hstep : ∀ s l t, I s → ok s l → step s l = some t → I t) (hP : ∀ s, I s → P s)
    (hbad : ∀ s l t, I s → ¬ ok s l → step s l = some t → ¬ P t)
    {s t : σ} {ls : List ℓ} (hr : exec step s ls = some t) (hs : I s) :
    Always step P s ls ↔ Meets step ok s ls := by
  refine ⟨fun h => ?_, fun h => always_of_meets hstep hP h hs⟩
  induction ls generalizing s with
  | nil => trivial
  | cons l ls ih =>
    obtain ⟨u, hu, hr⟩ := exec_cons_eq_some.mp hr
    have hok : ok s l := by
      by_contra hn
      exact hbad s l u hs hn hu (h.2 u hu).head
    refine ⟨hok, fun t' ht' => ?_⟩
    rw [hu] at ht'
    cases ht'
    exact ih hr (hstep s l u hs hok hu) (h.2 u hu)

/-- The same where the steps that keep `P` are known, given an invariant `J` that every step
keeps. -/
theorem always_iff_meets_of_step {J P : σ → Prop} {ok : σ → ℓ → Prop}
    (hJ : ∀ s l t, J s → step s l = some t → J t)
    (hP : ∀ s l t, J s → P s → step s l = some t → (P t ↔ ok s l))
    {s t : σ} {ls : List ℓ} (hr : exec step s ls = some t) (hs : J s) (hPs : P s) :
    Always step P s ls ↔ Meets step ok s ls := by
  refine always_iff_meets (I := fun s => J s ∧ P s) ?_ (fun _ h => h.2) ?_ hr ⟨hs, hPs⟩
  · rintro s l t ⟨hs, hPs⟩ hok hstep
    exact ⟨hJ s l t hs hstep, (hP s l t hs hPs hstep).mpr hok⟩
  · rintro s l t ⟨hs, hPs⟩ hbad hstep hPt
    exact hbad ((hP s l t hs hPs hstep).mp hPt)

/-! ### What comes out along a run -/

variable {ω : Type*} {out : σ → ℓ → List ω}

/-- What the steps of a run put out, one after the other. -/
def outputs (step : σ → ℓ → Option σ) (out : σ → ℓ → List ω) : σ → List ℓ → List ω
  | _, [] => []
  | s, l :: ls => out s l ++ (step s l).elim [] (outputs step out · ls)

theorem outputs_cons {s t : σ} {l : ℓ} (h : step s l = some t) (ls : List ℓ) :
    outputs step out s (l :: ls) = out s l ++ outputs step out t ls := by
  rw [outputs, h]
  rfl

/-- **The invariant rule with outputs.**  An invariant of what has come out so far, kept by
every step with what it puts out, holds of all that comes out of a run. -/
theorem invariant_of_outputs {I : List ω → σ → Prop}
    (hstep : ∀ os s l t, I os s → step s l = some t → I (os ++ out s l) t) (os : List ω)
    {s t : σ} {ls : List ℓ} (hr : exec step s ls = some t) (hs : I os s) :
    I (os ++ outputs step out s ls) t := by
  induction ls generalizing s os with
  | nil =>
    cases hr
    rwa [outputs, List.append_nil]
  | cons l ls ih =>
    obtain ⟨u, hu, hr⟩ := exec_cons_eq_some.mp hr
    rw [outputs_cons hu, ← List.append_assoc]
    exact ih _ hr (hstep os s l u hs hu)

/-! ### Steps that commute -/

/-- Two different steps of one state can be taken in either order. -/
def Commutes (step : σ → ℓ → Option σ) : Prop :=
  ∀ s l m t u, l ≠ m → step s l = some t → step s m = some u →
    ∃ v, step t m = some v ∧ step u l = some v

/-- A state with no step left. -/
def Final (step : σ → ℓ → Option σ) (s : σ) : Prop := ∀ l, step s l = none

/-- The first step of one run can be pulled to the front of another that ends
in a final state. -/
theorem exec_of_step (hc : Commutes step) {s t u : σ} {l : ℓ} {ls : List ℓ}
    (hr : exec step s ls = some t) (ht : Final step t) (hl : step s l = some u) :
    ∃ ls', exec step u ls' = some t ∧ ls'.length + 1 = ls.length := by
  induction ls generalizing s u with
  | nil =>
    cases hr
    rw [ht l] at hl
    cases hl
  | cons m ls ih =>
    obtain ⟨w, hw, hr⟩ := exec_cons_eq_some.mp hr
    by_cases hlm : l = m
    · subst hlm
      rw [hw] at hl
      cases hl
      exact ⟨ls, hr, rfl⟩
    · obtain ⟨x, hx, hx'⟩ := hc s m l w u (Ne.symm hlm) hw hl
      obtain ⟨ls', hr', hlen⟩ := ih hr hx
      refine ⟨m :: ls', exec_cons_eq_some.mpr ⟨x, hx', hr'⟩, ?_⟩
      rw [List.length_cons, List.length_cons, hlen]

/-- **One run into a final state decides all of them.**  Where steps commute,
every other run from the same state is no longer and completes to that state. -/
theorem exec_of_final (hc : Commutes step) {s t u : σ} {ls ms : List ℓ}
    (hr : exec step s ls = some t) (ht : Final step t) (hm : exec step s ms = some u) :
    ∃ ls', exec step u ls' = some t ∧ ms.length + ls'.length = ls.length := by
  induction ms generalizing s ls with
  | nil =>
    cases hm
    exact ⟨ls, hr, by simp⟩
  | cons m ms ih =>
    obtain ⟨w, hw, hm⟩ := exec_cons_eq_some.mp hm
    obtain ⟨ks, hk, hklen⟩ := exec_of_step hc hr ht hw
    obtain ⟨ls', hr', hlen⟩ := ih hk hm
    exact ⟨ls', hr', by rw [List.length_cons]; omega⟩

theorem length_le_of_final (hc : Commutes step) {s t u : σ} {ls ms : List ℓ}
    (hr : exec step s ls = some t) (ht : Final step t) (hm : exec step s ms = some u) :
    ms.length ≤ ls.length := by
  obtain ⟨ls', -, hlen⟩ := exec_of_final hc hr ht hm
  omega

/-- Where steps commute and one run ends, no state short of its end is stuck. -/
theorem exists_step_of_ne_final (hc : Commutes step) {s t u : σ} {ls ms : List ℓ}
    (hr : exec step s ls = some t) (ht : Final step t) (hm : exec step s ms = some u)
    (hne : u ≠ t) : ∃ l v, step u l = some v := by
  obtain ⟨ls', hr', -⟩ := exec_of_final hc hr ht hm
  cases ls' with
  | nil =>
    cases hr'
    exact absurd rfl hne
  | cons l ls' =>
    obtain ⟨v, hv, -⟩ := exec_cons_eq_some.mp hr'
    exact ⟨l, v, hv⟩

/-! ### State kept as a function -/

theorem update_eq_cases {α β : Type*} [DecidableEq α] {f : α → β} {a x : α} {b y : β}
    (h : Function.update f a b x = y) : (x = a ∧ b = y) ∨ (x ≠ a ∧ f x = y) := by
  by_cases hx : x = a
  · subst hx
    rw [Function.update_self] at h
    exact Or.inl ⟨rfl, h⟩
  · rw [Function.update_of_ne hx] at h
    exact Or.inr ⟨hx, h⟩

end Transition
