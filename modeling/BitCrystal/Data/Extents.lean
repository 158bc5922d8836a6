import Mathlib.Tactic.Common

namespace BitCrystal.Data

/-! Byte ranges that are handed out from several files, with a mark in each file
that no range of it passes. -/

structure Extent (κ : Type) where
  key : κ
  start : Nat
  stop : Nat
deriving DecidableEq

namespace Extent

variable {κ : Type}

def Apart (left right : Extent κ) : Prop :=
  left.key = right.key → left.stop ≤ right.start ∨ right.stop ≤ left.start

def After (later earlier : Extent κ) : Prop :=
  later.key = earlier.key → earlier.stop ≤ later.start

theorem After.apart {later earlier : Extent κ} (after : later.After earlier) : later.Apart earlier :=
  fun same => Or.inr (after same)

end Extent

def Below {κ : Type} (mark : κ → Nat) (extents : List (Extent κ)) : Prop :=
  ∀ extent ∈ extents, extent.stop ≤ mark extent.key

namespace Below

variable {κ : Type} {mark later : κ → Nat} {extents : List (Extent κ)}

theorem nil : Below mark [] :=
  fun _ member => absurd member List.not_mem_nil

theorem mono (below : Below mark extents) (grows : ∀ key, mark key ≤ later key) : Below later extents :=
  fun extent member => Nat.le_trans (below extent member) (grows extent.key)

theorem cons (below : Below mark extents) {extent : Extent κ} (own : extent.stop ≤ mark extent.key) :
    Below mark (extent :: extents) := by
  intro other member
  rcases List.mem_cons.mp member with rfl | member
  · exact own
  · exact below other member

theorem after (below : Below mark extents) {extent : Extent κ} (above : mark extent.key ≤ extent.start) :
    ∀ earlier ∈ extents, extent.After earlier := by
  intro earlier member same
  have ends := below earlier member
  rw [← same] at ends
  exact Nat.le_trans ends above

end Below

end BitCrystal.Data
