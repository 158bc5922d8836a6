import Mathlib.Data.List.Basic
import Mathlib.Order.Bounds.Basic

namespace BitCrystal.Data

/-! Extrema of a list that grows at its end. -/

theorem setOf_mem_concat {α : Type} (values : List α) (next : α) :
    {v | v ∈ values ++ [next]} = insert next {v | v ∈ values} := by
  ext v
  simp [or_comm]

variable {α : Type} [LinearOrder α] {values : List α} {value next bottom : α}

theorem isLeast_concat (least : IsLeast {v | v ∈ values} value) : IsLeast {v | v ∈ values ++ [next]} (min next value) := by
  rw [setOf_mem_concat]
  exact least.insert next

theorem isGreatest_concat (greatest : IsGreatest {v | v ∈ values} value) :
    IsGreatest {v | v ∈ values ++ [next]} (max next value) := by
  rw [setOf_mem_concat]
  exact greatest.insert next

/-! ## Raised values -/

/-- The value at `i` is above an earlier one. -/
def Raised (values : List α) (i : Nat) : Prop :=
  ∃ value low j, values[i]? = some value ∧ j < i ∧ values[j]? = some low ∧ low < value

/-- `value` is the last raised one, or `bottom` where none is raised. -/
inductive LastRaised (bottom : α) (values : List α) : α → Prop where
  | level (level : ∀ i, ¬ Raised values i) : LastRaised bottom values bottom
  | raised (i : Nat) {value : α} (found : values[i]? = some value) (isRaised : Raised values i)
      (last : ∀ k, i < k → ¬ Raised values k) : LastRaised bottom values value

theorem LastRaised.unique {other : α} (left : LastRaised bottom values value)
    (right : LastRaised bottom values other) : value = other := by
  cases left with
  | level level =>
      cases right with
      | level _ => rfl
      | raised i _ isRaised _ => exact absurd isRaised (level i)
  | raised i found isRaised last =>
      cases right with
      | level level => exact absurd isRaised (level i)
      | raised k found' isRaised' last' =>
          have same : i = k := by
            rcases Nat.lt_trichotomy i k with before | same | after
            · exact absurd isRaised' (last k before)
            · exact same
            · exact absurd isRaised (last' i after)
          subst same
          exact Option.some.inj (found.symm.trans found')

theorem raised_concat_of_lt {i : Nat} (inside : i < values.length) : Raised (values ++ [next]) i ↔ Raised values i := by
  have before {j : Nat} (le : j ≤ i) : (values ++ [next])[j]? = values[j]? :=
    List.getElem?_append_left (by omega)
  constructor
  · rintro ⟨value, low, j, found, earlier, foundLow, below⟩
    rw [before le_rfl] at found
    rw [before (le_of_lt earlier)] at foundLow
    exact ⟨value, low, j, found, earlier, foundLow, below⟩
  · rintro ⟨value, low, j, found, earlier, foundLow, below⟩
    rw [← before le_rfl] at found
    rw [← before (le_of_lt earlier)] at foundLow
    exact ⟨value, low, j, found, earlier, foundLow, below⟩

theorem raised_concat_last : Raised (values ++ [next]) values.length ↔ ∃ low ∈ values, low < next := by
  have last : (values ++ [next])[values.length]? = some next := by simp
  constructor
  · rintro ⟨value, low, j, found, earlier, foundLow, below⟩
    obtain rfl : next = value := Option.some.inj (last.symm.trans found)
    rw [List.getElem?_append_left earlier] at foundLow
    exact ⟨low, List.mem_of_getElem? foundLow, below⟩
  · rintro ⟨low, member, below⟩
    obtain ⟨j, inside, rfl⟩ := List.getElem_of_mem member
    exact ⟨next, values[j], j, last, inside, by rw [List.getElem?_append_left inside, List.getElem?_eq_getElem], below⟩

theorem not_raised_of_le {i : Nat} (outside : values.length ≤ i) : ¬ Raised values i := by
  rintro ⟨value, low, j, found, _⟩
  rw [List.getElem?_eq_none outside] at found
  cases found

theorem LastRaised.concat_raised (above : ∃ low ∈ values, low < next) : LastRaised bottom (values ++ [next]) next :=
  .raised values.length (by simp) (raised_concat_last.mpr above) fun k beyond =>
    not_raised_of_le (by simpa using Nat.succ_le_of_lt beyond)

theorem LastRaised.concat_level (lastRaised : LastRaised bottom values value) (level : ∀ low ∈ values, next ≤ low) :
    LastRaised bottom (values ++ [next]) value := by
  have nothing {i : Nat} (old : ¬ Raised values i) : ¬ Raised (values ++ [next]) i := by
    rcases Nat.lt_trichotomy i values.length with inside | rfl | beyond
    · rwa [raised_concat_of_lt inside]
    · rw [raised_concat_last]
      rintro ⟨low, member, below⟩
      exact absurd (level low member) (not_le_of_gt below)
    · exact not_raised_of_le (by simpa using Nat.succ_le_of_lt beyond)
  cases lastRaised with
  | level old => exact .level fun i => nothing (old i)
  | raised i found isRaised last =>
      have inside : i < values.length := (List.getElem?_eq_some_iff.mp found).1
      refine .raised i ?_ ((raised_concat_of_lt inside).mpr isRaised) fun k later => nothing (last k later)
      rw [List.getElem?_append_left inside, found]

end BitCrystal.Data
