import Mathlib.Data.List.Destutter

/-!
# Sorting and removing neighbours

`List.destutter (· ≠ ·)` keeps the first of any run of equal elements.  What it keeps is
decided by sublists: a list without equal neighbours is a sublist of what is kept as soon
as it is one of the list (`sublist_destutter`).  So nothing is lost, and something is left
twice exactly when the list returns to it after something else
(`nodup_destutter_iff`).

A stable sort keeps the order of what it takes for equal, so a sorted list returns to
an element only where the list did, among elements of one rank
(`nodup_destutter_mergeSort_iff`).
-/

namespace SortDedup

universe u v

variable {α : Type u} {le : α → α → Bool}

/-- A stable sort keeps the order of what it takes for equal. -/
theorem filter_mergeSort (htrans : ∀ a b c, le a b → le b c → le a c)
    (htotal : ∀ a b, le a b || le b a) {p : α → Bool} (hp : ∀ a b, p a → p b → le a b)
    (l : List α) : (l.mergeSort le).filter p = l.filter p := by
  have hpairwise : (l.filter p).Pairwise fun a b => le a b = true := by
    refine List.pairwise_of_forall_mem_list fun a ha b hb => ?_
    exact hp a b (List.of_mem_filter ha) (List.of_mem_filter hb)
  have hsub : (l.filter p).Sublist (l.mergeSort le) :=
    List.sublist_mergeSort htrans htotal hpairwise List.filter_sublist
  have hsub' := hsub.filter p
  rw [List.filter_eq_self.mpr fun a ha => List.of_mem_filter ha] at hsub'
  refine (hsub'.eq_of_length ?_).symm
  exact (((List.mergeSort_perm l le).filter p).length_eq).symm

/-! ### Equal neighbours -/

/-- Between two equal elements that are no neighbours there is another one. -/
theorem exists_between {x : α} {l : List α} (hl : l.IsChain (· ≠ ·)) (h : [x, x].Sublist l) :
    ∃ y, x ≠ y ∧ [x, y, x].Sublist l := by
  induction l with
  | nil => cases h
  | cons a l ih =>
    rcases List.sublist_cons_iff.mp h with h | ⟨c, hc, h⟩
    · obtain ⟨y, hne, hy⟩ := ih hl.tail h
      exact ⟨y, hne, hy.cons a⟩
    · cases hc
      cases l with
      | nil => cases h
      | cons b l =>
        have hne := (List.isChain_cons_cons.mp hl).1
        refine ⟨b, hne, ((List.singleton_sublist.mpr ?_).cons_cons b).cons_cons x⟩
        exact (List.mem_cons.mp (List.singleton_sublist.mp h)).resolve_left hne

section Destutter

variable [DecidableEq α]

theorem sublist_destutter' {a : α} {c l : List α} (hc : c.IsChain (· ≠ ·)) (h : c.Sublist (a :: l)) :
    c.Sublist (l.destutter' (· ≠ ·) a) := by
  induction l generalizing a c with
  | nil => exact h
  | cons b l ih =>
    by_cases hab : a = b
    · subst hab
      rw [List.destutter'_cons_neg _ (not_not.mpr rfl)]
      -- of two equal neighbours a list without such takes one
      rcases List.sublist_cons_iff.mp h with h₁ | ⟨c', rfl, h₁⟩
      · exact ih hc h₁
      · rcases List.sublist_cons_iff.mp h₁ with h₂ | ⟨c'', rfl, -⟩
        · exact ih hc (h₂.cons_cons a)
        · exact absurd rfl (List.isChain_cons_cons.mp hc).1
    · rw [List.destutter'_cons_pos _ hab]
      rcases List.sublist_cons_iff.mp h with h₁ | ⟨c', rfl, h₁⟩
      · exact (ih hc h₁).cons a
      · exact (ih hc.tail h₁).cons_cons a

theorem sublist_destutter {c l : List α} (hc : c.IsChain (· ≠ ·)) (h : c.Sublist l) :
    c.Sublist (l.destutter (· ≠ ·)) := by
  cases l with
  | nil => exact h
  | cons a l => exact sublist_destutter' hc h

@[simp] theorem mem_destutter {a : α} {l : List α} : a ∈ l.destutter (· ≠ ·) ↔ a ∈ l := by
  refine ⟨fun h => (List.destutter_sublist _ l).subset h, fun h => ?_⟩
  exact List.singleton_sublist.mp
    (sublist_destutter (List.isChain_singleton a) (List.singleton_sublist.mpr h))

/-- **What is left twice**: something that the list returns to. -/
theorem nodup_destutter_iff {l : List α} :
    (l.destutter (· ≠ ·)).Nodup ↔ ∀ x y, x ≠ y → ¬ [x, y, x].Sublist l := by
  rw [List.nodup_iff_sublist]
  constructor
  · intro h x y hne hsub
    have hchain : [x, y, x].IsChain (· ≠ ·) := by simp [hne, hne.symm]
    refine h x (List.Sublist.trans ?_ (sublist_destutter hchain hsub))
    exact (List.Sublist.cons y (List.Sublist.refl [x])).cons_cons x
  · intro h x hsub
    obtain ⟨y, hne, hy⟩ := exists_between (List.isChain_destutter _ l) hsub
    exact h x y hne (hy.trans (List.destutter_sublist _ l))

/-! ### A stable sort before it -/

/-- **What a sorted list returns to.**  `f` is what the sort looks at: it takes elements for
equal exactly when they agree on it. -/
theorem nodup_destutter_mergeSort_iff {β : Type v} [DecidableEq β] {f : α → β}
    (htrans : ∀ a b c, le a b → le b c → le a c) (htotal : ∀ a b, le a b || le b a)
    (hf : ∀ a b, f a = f b ↔ le a b ∧ le b a) (l : List α) :
    ((l.mergeSort le).destutter (· ≠ ·)).Nodup ↔
      ∀ x y, x ≠ y → f x = f y → ¬ [x, y, x].Sublist l := by
  have hle : ∀ {a b}, f a = f b → le a b = true := fun h => ((hf _ _).mp h).1
  rw [nodup_destutter_iff]
  constructor
  · intro h x y hne heq hsub
    refine h x y hne (List.sublist_mergeSort htrans htotal ?_ hsub)
    simp [hle heq, hle heq.symm, hle (rfl : f x = f x)]
  · intro h x y hne hsub
    -- between two equal elements of a sorted list there is nothing of another rank
    have hsorted := (List.pairwise_mergeSort htrans htotal l).sublist hsub
    have heq : f x = f y := by
      refine (hf x y).mpr ⟨?_, ?_⟩
      · exact List.rel_of_pairwise_cons hsorted (List.mem_cons_self)
      · exact List.rel_of_pairwise_cons hsorted.of_cons (List.mem_singleton_self x)
    refine h x y hne heq ?_
    have hsub' := hsub.filter fun a => decide (f a = f x)
    have hrank : ∀ a b, decide (f a = f x) → decide (f b = f x) → le a b := by
      intro a b ha hb
      exact hle ((of_decide_eq_true ha).trans (of_decide_eq_true hb).symm)
    rw [filter_mergeSort htrans htotal hrank] at hsub'
    have hall : [x, y, x].filter (fun a => decide (f a = f x)) = [x, y, x] := by
      simp [heq]
    rw [hall] at hsub'
    exact hsub'.trans List.filter_sublist

end Destutter

end SortDedup
