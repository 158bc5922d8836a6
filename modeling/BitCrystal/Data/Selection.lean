import Mathlib.Algebra.Order.BigOperators.Group.List
import Mathlib.Tactic.Common

namespace BitCrystal.Data

/-! The elements of a list that a mask of the same length selects. -/

variable {α β : Type}

def masked : List α → List Bool → List α
  | element :: rest, bit :: mask => if bit then element :: masked rest mask else masked rest mask
  | [], _ => []
  | _ :: _, [] => []

theorem masked_sublist (elements : List α) (mask : List Bool) : (masked elements mask).Sublist elements := by
  induction elements generalizing mask with
  | nil => exact .slnil
  | cons element rest ih =>
      cases mask with
      | nil => exact List.nil_sublist _
      | cons bit mask =>
          cases bit with
          | true => exact (ih mask).cons_cons element
          | false => exact (ih mask).cons element

theorem masked_all (elements : List α) : masked elements (List.replicate elements.length true) = elements := by
  induction elements with
  | nil => rfl
  | cons element rest ih => simp [masked, List.replicate_succ, ih]

theorem masked_none (elements : List α) (size : Nat) : masked elements (List.replicate size false) = [] := by
  induction elements generalizing size with
  | nil => rfl
  | cons element rest ih =>
      cases size with
      | zero => rfl
      | succ size => simp [masked, List.replicate_succ, ih]

theorem masked_map (f : α → β) (elements : List α) (mask : List Bool) :
    masked (elements.map f) mask = (masked elements mask).map f := by
  induction elements generalizing mask with
  | nil => rfl
  | cons element rest ih =>
      cases mask with
      | nil => rfl
      | cons bit mask => cases bit <;> simp [masked, ih]

theorem sum_masked_set [AddCommMonoid α] {elements : List α} {mask : List Bool} {i : Nat} {element : α}
    (found : elements[i]? = some element) (unset : mask[i]? = some false) :
    (masked elements (mask.set i true)).sum = (masked elements mask).sum + element := by
  induction elements generalizing mask i with
  | nil => simp at found
  | cons first rest ih =>
      cases mask with
      | nil => simp at unset
      | cons bit mask =>
          cases i with
          | zero =>
              simp only [List.getElem?_cons_zero, Option.some.injEq] at found unset
              subst found unset
              simp [masked, add_comm]
          | succ i =>
              rw [List.getElem?_cons_succ] at found unset
              have others := ih found unset
              cases bit <;> simp [masked, others, add_assoc]

theorem set_set_unset {mask : List Bool} {i : Nat} (unset : mask[i]? = some false) :
    (mask.set i true).set i false = mask := by
  obtain ⟨bound, value⟩ := List.getElem?_eq_some_iff.mp unset
  rw [List.set_set, ← value, List.set_getElem_self]

end BitCrystal.Data
