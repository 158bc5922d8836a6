import Mathlib.Logic.Relation

namespace BitCrystal.Data

open Relation

/-! Forests given by a parent function, with a height that grows by one from a
parent to its children. -/

variable {α : Type} {parent : α → Option α} {height : α → Int} {ancestor other element : α}

def Ancestor (parent : α → Option α) (ancestor element : α) : Prop :=
  ReflTransGen (fun child above => parent child = some above) element ancestor

def Graded (parent : α → Option α) (height : α → Int) : Prop :=
  ∀ child above, parent child = some above → height child = height above + 1

namespace Ancestor

theorem refl (element : α) : Ancestor parent element element :=
  ReflTransGen.refl

theorem trans {middle : α} (upper : Ancestor parent ancestor middle)
    (lower : Ancestor parent middle element) : Ancestor parent ancestor element :=
  ReflTransGen.trans lower upper

theorem of_parent (step : parent element = some ancestor) : Ancestor parent ancestor element :=
  ReflTransGen.single step

theorem height_le (graded : Graded parent height) (path : Ancestor parent ancestor element) :
    height ancestor ≤ height element := by
  induction path with
  | refl => exact Int.le_refl _
  | tail _ step ih =>
      have one := graded _ _ step
      omega

theorem cases_parent (path : Ancestor parent ancestor element) :
    ancestor = element ∨ ∃ above, parent element = some above ∧ Ancestor parent ancestor above := by
  cases ReflTransGen.cases_head path with
  | inl same => exact Or.inl same.symm
  | inr step =>
      obtain ⟨above, up, rest⟩ := step
      exact Or.inr ⟨above, up, rest⟩

theorem eq_of_root (path : Ancestor parent ancestor element) (root : parent element = none) : ancestor = element := by
  cases path.cases_parent with
  | inl same => exact same
  | inr further =>
      obtain ⟨_, step, _⟩ := further
      rw [root] at step
      cases step

theorem eq_of_height_le (graded : Graded parent height) (path : Ancestor parent ancestor element)
    (low : height element ≤ height ancestor) : ancestor = element := by
  cases path.cases_parent with
  | inl same => exact same
  | inr step =>
      obtain ⟨above, up, rest⟩ := step
      have one := graded _ _ up
      have atMost := rest.height_le graded
      omega

theorem congr {other : α → Option α} (inside : α → Prop) (same : ∀ child, inside child → other child = parent child)
    (closed : ∀ child above, inside child → parent child = some above → inside above) (start : inside element) :
    Ancestor other ancestor element ↔ Ancestor parent ancestor element := by
  constructor
  · intro path
    induction path using ReflTransGen.head_induction_on with
    | refl => exact refl ancestor
    | head step _ ih =>
        rw [same _ start] at step
        exact (ih (closed _ _ start step)).trans (of_parent step)
  · intro path
    induction path using ReflTransGen.head_induction_on with
    | refl => exact refl ancestor
    | head step _ ih =>
        have further := ih (closed _ _ start step)
        rw [← same _ start] at step
        exact further.trans (of_parent step)

end Ancestor

end BitCrystal.Data
