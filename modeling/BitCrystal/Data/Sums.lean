import BitCrystal.Data.Outcome
import Mathlib.Algebra.BigOperators.Group.Finset.Piecewise

namespace BitCrystal.Data

/-! Sums that loops compute, and sums over the elements that a test selects. -/

variable {ε α M : Type} [AddCommMonoid M]

/-- A loop whose every turn adds an amount to a measure of the state has added all of them when it ends. -/
theorem foldlM_measure {σ : Type} {body : σ → α → Except ε σ} (measure : σ → M) (amount : α → M) {elements : List α}
    {state last : σ} (adds : ∀ element ∈ elements, ∀ state next, body state element = .ok next →
      measure next = measure state + amount element)
    (run : elements.foldlM body state = .ok last) : measure last = measure state + (elements.map amount).sum := by
  induction elements generalizing state with
  | nil =>
      cases run
      simp
  | cons element rest ih =>
      obtain ⟨next, step, remaining⟩ := foldlM_cons_eq_ok.mp run
      have added : measure next = measure state + amount element := adds element List.mem_cons_self state next step
      have others := ih (fun other member => adds other (List.mem_cons_of_mem element member)) remaining
      rw [others, added, List.map_cons, List.sum_cons, add_assoc]

theorem foldlM_sum {body : M → α → Except ε M} (amount : α → M) {elements : List α} {state last : M}
    (adds : ∀ element ∈ elements, ∀ state next, body state element = .ok next → next = state + amount element)
    (run : elements.foldlM body state = .ok last) : last = state + (elements.map amount).sum :=
  foldlM_measure id amount adds run

theorem sum_map_filter (test : α → Bool) (amount : α → M) (elements : List α) :
    ((elements.filter test).map amount).sum =
      (elements.map fun element => if test element then amount element else 0).sum := by
  induction elements with
  | nil => rfl
  | cons element rest ih =>
      rw [List.filter_cons, List.map_cons, List.sum_cons, ← ih]
      split
      · rw [List.map_cons, List.sum_cons]
      · rw [zero_add]

theorem sum_filter_add_not (test : α → Bool) (amount : α → M) (elements : List α) :
    ((elements.filter test).map amount).sum + ((elements.filter fun element => !test element).map amount).sum =
      (elements.map amount).sum := by
  induction elements with
  | nil => simp
  | cons element rest ih =>
      rw [List.map_cons, List.sum_cons, ← ih]
      cases selected : test element with
      | true => simp [selected, add_assoc]
      | false => simp [selected, add_left_comm]

theorem sum_comm_list {κ : Type} (keys : Finset κ) (amount : κ → α → M) (elements : List α) :
    ∑ key ∈ keys, (elements.map (amount key)).sum =
      (elements.map fun element => ∑ key ∈ keys, amount key element).sum := by
  induction elements with
  | nil => simp
  | cons element rest ih => simp only [List.map_cons, List.sum_cons, Finset.sum_add_distrib, ih]

theorem sum_fibers {κ : Type} [DecidableEq κ] (group : α → κ) (amount : α → M) {keys : Finset κ} {elements : List α}
    (covered : ∀ element ∈ elements, group element ∈ keys) :
    ∑ key ∈ keys, ((elements.filter fun element => group element = key).map amount).sum =
      (elements.map amount).sum := by
  simp only [sum_map_filter, decide_eq_true_eq]
  rw [sum_comm_list]
  congr 1
  apply List.map_congr_left
  intro element member
  rw [Finset.sum_ite_eq keys (group element) fun _ => amount element, if_pos (covered element member)]

theorem sum_map_flatMap {β : Type} (parts : β → List α) (amount : α → M) (elements : List β) :
    ((elements.flatMap parts).map amount).sum = (elements.map fun element => ((parts element).map amount).sum).sum := by
  induction elements with
  | nil => rfl
  | cons element rest ih =>
      rw [List.flatMap_cons, List.map_append, List.sum_append, List.map_cons, List.sum_cons, ih]

theorem sum_map_sub {G : Type} [AddCommGroup G] (gained lost : α → G) (elements : List α) :
    (elements.map fun element => gained element - lost element).sum =
      (elements.map gained).sum - (elements.map lost).sum := by
  induction elements with
  | nil => simp
  | cons element rest ih =>
      simp only [List.map_cons, List.sum_cons, ih]
      exact (add_sub_add_comm _ _ _ _).symm

end BitCrystal.Data
