import Mathlib.Logic.Basic
import Mathlib.Order.Basic

namespace BitCrystal.Data

/-! Rejection loops: values are drawn from a generator until one is accepted. -/

variable {σ β : Type}

def drawn (next : σ → β × σ) : Nat → σ → σ
  | 0, s => s
  | count + 1, s => drawn next count (next s).2

/-- The first accepted value within some turns, and the state it leaves. -/
def rejectLoop (next : σ → β × σ) (accept : β → Bool) : (turns : Nat) → σ → Option (β × σ)
  | 0, _ => none
  | turns + 1, s => if accept (next s).1 then some (next s) else rejectLoop next accept turns (next s).2

variable {next : σ → β × σ} {accept : β → Bool} {turns : Nat} {s s' : σ} {value : β}

theorem drawn_succ (n : Nat) : drawn next (n + 1) s = (next (drawn next n s)).2 := by
  induction n generalizing s with
  | zero => rfl
  | succ n ih => exact ih

theorem drawn_add (m n : Nat) : drawn next (m + n) s = drawn next n (drawn next m s) := by
  induction m generalizing s with
  | zero => rw [Nat.zero_add, drawn]
  | succ m ih => rw [Nat.succ_add, drawn, drawn, ih]

theorem rejectLoop_draw (returned : rejectLoop next accept turns s = some (value, s')) :
    ∃ n, next (drawn next n s) = (value, s') ∧ accept value = true := by
  induction turns generalizing s with
  | zero => contradiction
  | succ turns ih =>
      rw [rejectLoop] at returned
      split at returned
      · rename_i accepted
        refine ⟨0, Option.some.inj returned, ?_⟩
        rwa [Option.some.inj returned] at accepted
      · obtain ⟨n, found, accepted⟩ := ih returned
        exact ⟨n + 1, found, accepted⟩

/-- A generator that never draws an accepted value keeps the loop going. -/
theorem rejectLoop_eq_none (rejects : ∀ s, accept (next s).1 = false) : rejectLoop next accept turns s = none := by
  induction turns generalizing s with
  | zero => rfl
  | succ turns ih =>
      rw [rejectLoop, rejects s, if_neg Bool.false_ne_true]
      exact ih

theorem rejectLoop_first {n : Nat} (rejects : ∀ m < n, accept (next (drawn next m s)).1 = false)
    (accepts : accept (next (drawn next n s)).1 = true) (enough : n < turns) :
    rejectLoop next accept turns s = some (next (drawn next n s)) := by
  induction n generalizing turns s with
  | zero =>
      obtain ⟨turns, rfl⟩ : ∃ k, turns = k + 1 := ⟨turns - 1, by omega⟩
      rw [drawn] at accepts
      rw [rejectLoop, if_pos accepts, drawn]
  | succ n ih =>
      obtain ⟨turns, rfl⟩ : ∃ k, turns = k + 1 := ⟨turns - 1, by omega⟩
      have first := rejects 0 (Nat.succ_pos n)
      rw [drawn] at first
      rw [rejectLoop, first, if_neg Bool.false_ne_true]
      exact ih (fun m before => rejects (m + 1) (Nat.succ_lt_succ before)) accepts (Nat.lt_of_succ_lt_succ enough)

end BitCrystal.Data
