import Mathlib.Data.Nat.Digits.Lemmas
import Mathlib.Tactic.Ring

namespace BitCrystal.Data

/-! Numbers spelled by the digits of a power of two, the lowest digit first. -/

section Bits

variable {w : Nat} {digits : List Nat}

theorem testBit_ofDigits (positive : 0 < w) (small : ∀ digit ∈ digits, digit < 2 ^ w) (n : Nat) :
    (Nat.ofDigits (2 ^ w) digits).testBit n = (digits.getD (n / w) 0).testBit (n % w) := by
  induction digits generalizing n with
  | nil => simp
  | cons digit digits ih =>
      have first := small digit List.mem_cons_self
      have rest := ih fun other member => small other (List.mem_cons_of_mem digit member)
      rw [Nat.ofDigits_cons, Nat.add_comm, Nat.testBit_two_pow_mul_add _ first]
      split
      · rename_i low
        rw [Nat.div_eq_of_lt low, Nat.mod_eq_of_lt low, List.getD_cons_zero]
      · rename_i high
        have later : n = (n - w) + w := by omega
        rw [rest, later, Nat.add_sub_cancel, Nat.add_div_right _ positive, Nat.add_mod_right, List.getD_cons_succ]

end Bits

section Words

variable {low low' high high' size : Nat}

theorem lt_of_parts (small : low < size) (small' : low' < size) :
    low + size * high < low' + size * high' ↔ high < high' ∨ high = high' ∧ low < low' := by
  rcases Nat.lt_trichotomy high high' with below | rfl | above
  · have gap : size * (high + 1) ≤ size * high' := Nat.mul_le_mul_left size below
    rw [Nat.mul_add] at gap
    exact ⟨fun _ => .inl below, fun _ => by omega⟩
  · omega
  · have gap : size * (high' + 1) ≤ size * high := Nat.mul_le_mul_left size above
    rw [Nat.mul_add] at gap
    constructor
    · intro order
      omega
    · omega

theorem eq_of_parts (small : low < size) (small' : low' < size) :
    low + size * high = low' + size * high' ↔ high = high' ∧ low = low' := by
  have first : low + size * high < low' + size * high' ↔ high < high' ∨ high = high' ∧ low < low' := lt_of_parts small small'
  have second : low' + size * high' < low + size * high ↔ high' < high ∨ high' = high ∧ low' < low := lt_of_parts small' small
  omega

end Words

end BitCrystal.Data
