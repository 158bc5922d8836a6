import Mathlib.Tactic.Common

namespace BitCrystal.Data

/-! Values that are computed when they are first asked for and kept until they are
cleared.  `Current` says that clearing would make no difference. -/

structure Memo (α : Type) where
  valid : Bool
  value : α
deriving DecidableEq

namespace Memo

variable {ε α : Type}

def clear (memo : Memo α) : Memo α := { memo with valid := false }

/-- The kept value, or the computed one, which is kept from then on. A computation that
fails leaves things as they are. -/
def read (memo : Memo α) (useKept : Bool) (computed : Except ε α) : Memo α × Except ε α :=
  if useKept && memo.valid then (memo, .ok memo.value)
  else
    match computed with
    | .ok value => (⟨true, value⟩, .ok value)
    | .error reason => (memo, .error reason)

def Current (memo : Memo α) (computed : Except ε α) : Prop :=
  memo.valid = true → computed = .ok memo.value

variable {memo : Memo α} {useKept : Bool} {computed : Except ε α}

@[simp] theorem clear_valid : memo.clear.valid = false := rfl

theorem current_clear : memo.clear.Current computed := by
  intro valid
  exact absurd valid (by simp)

theorem current_of_invalid (invalid : memo.valid = false) : memo.Current computed := by
  intro valid
  exact absurd (valid.symm.trans invalid) (by decide)

theorem read_answer_of_invalid (invalid : memo.valid = false) : (memo.read useKept computed).2 = computed := by
  cases computed <;> simp [read, invalid]

theorem Current.read_answer (current : memo.Current computed) : (memo.read useKept computed).2 = computed := by
  cases valid : memo.valid with
  | false => exact read_answer_of_invalid valid
  | true =>
      rw [current valid]
      cases useKept <;> simp [Memo.read, valid]

theorem Current.read (current : memo.Current computed) : (memo.read useKept computed).1.Current computed := by
  unfold Memo.read
  split
  · exact current
  · split
    · intro _
      rfl
    · exact current

theorem read_answer_iff : (memo.read useKept computed).2 = computed ↔
    (useKept = true → memo.Current computed) := by
  cases useKept with
  | false => cases computed <;> simp [Memo.read]
  | true =>
      cases valid : memo.valid with
      | false => simp [read_answer_of_invalid valid, current_of_invalid valid]
      | true => simp [Memo.read, Current, valid, eq_comm]

end Memo

end BitCrystal.Data
