import Mathlib.Data.List.TakeWhile
import Mathlib.Data.Nat.Digits.Lemmas
import Mathlib.Tactic.Ring

namespace BitCrystal.Data

/-! # Numbers by their digits, the most significant one first -/

/-- The number that `digits` spell in `base`. -/
def spelled (base : Nat) (digits : List Nat) : Nat := Nat.ofDigits base digits.reverse

@[simp]
theorem spelled_nil (base : Nat) : spelled base [] = 0 := rfl

theorem spelled_append (base : Nat) (front back : List Nat) :
    spelled base (front ++ back) = spelled base front * base ^ back.length + spelled base back := by
  rw [spelled, List.reverse_append, Nat.ofDigits_append, List.length_reverse]
  unfold spelled
  ring

theorem spelled_concat (base : Nat) (front : List Nat) (digit : Nat) :
    spelled base (front ++ [digit]) = spelled base front * base + digit := by
  rw [spelled_append, List.length_singleton, Nat.pow_one]
  simp [spelled]

theorem spelled_zeros (base count : Nat) (digits : List Nat) :
    spelled base (List.replicate count 0 ++ digits) = spelled base digits := by
  rw [spelled_append]
  simp [spelled, Nat.ofDigits_replicate_zero]

theorem spelled_injective {base : Nat} (large : 1 < base) {first second : List Nat}
    (sameLength : first.length = second.length) (firstSmall : ∀ digit ∈ first, digit < base)
    (secondSmall : ∀ digit ∈ second, digit < base) (sameValue : spelled base first = spelled base second) :
    first = second := by
  have reversed : first.reverse = second.reverse :=
    Nat.ofDigits_inj_of_len_eq large (by rw [List.length_reverse, List.length_reverse, sameLength])
      (fun digit member => firstSmall digit (List.mem_reverse.mp member))
      (fun digit member => secondSmall digit (List.mem_reverse.mp member)) sameValue
  exact List.reverse_injective reversed

/-! ## Change of base -/

def leadingZeros (digits : List Nat) : Nat := (digits.takeWhile (· = 0)).length

/-- The number in the base `other`, behind as many zeros as it had before it. -/
def rebased (base other : Nat) (digits : List Nat) : List Nat :=
  List.replicate (leadingZeros digits) 0 ++ (Nat.digits other (spelled base digits)).reverse

theorem leadingZeros_append {count : Nat} {digits : List Nat} (nonzero : ∀ first ∈ digits.head?, first ≠ 0) :
    leadingZeros (List.replicate count 0 ++ digits) = count := by
  have front : ∀ digit ∈ List.replicate count 0, decide (digit = 0) = true := fun digit member => by
    rw [List.eq_of_mem_replicate member, decide_eq_true_eq]
  have stop : digits.takeWhile (· = 0) = [] := by
    cases digits with
    | nil => rfl
    | cons first digits => rw [List.takeWhile_cons_of_neg (by rw [decide_eq_true_eq]; exact nonzero first rfl)]
  rw [leadingZeros, List.takeWhile_append_of_pos front, stop, List.append_nil, List.length_replicate]

theorem digits_reverse_head {base n : Nat} : ∀ first ∈ (Nat.digits base n).reverse.head?, first ≠ 0 := by
  intro first member
  rw [List.head?_reverse] at member
  obtain ⟨filled, rfl⟩ := List.mem_getLast?_eq_getLast member
  refine Nat.getLast_digit_ne_zero base fun zero => ?_
  rw [zero, Nat.digits_zero] at filled
  exact filled rfl

theorem leadingZeros_rebased (base other : Nat) (digits : List Nat) :
    leadingZeros (rebased base other digits) = leadingZeros digits :=
  leadingZeros_append digits_reverse_head

theorem spelled_rebased (base other : Nat) (digits : List Nat) :
    spelled other (rebased base other digits) = spelled base digits := by
  rw [rebased, spelled_zeros, spelled, List.reverse_reverse, Nat.ofDigits_digits]

theorem rebased_small {base other : Nat} (large : 1 < other) (digits : List Nat) :
    ∀ digit ∈ rebased base other digits, digit < other := by
  intro digit member
  rcases List.mem_append.mp member with zero | inside
  · rw [List.eq_of_mem_replicate zero]
    omega
  · exact Nat.digits_lt_base large (List.mem_reverse.mp inside)

theorem rebased_self {base : Nat} (large : 1 < base) {digits : List Nat} (small : ∀ digit ∈ digits, digit < base) :
    rebased base base digits = digits := by
  obtain ⟨zeros, rest, split, onlyZeros, nonzero⟩ : ∃ zeros rest, digits = zeros ++ rest ∧
      zeros = List.replicate (leadingZeros digits) 0 ∧ ∀ first ∈ rest.head?, first ≠ 0 := by
    refine ⟨digits.takeWhile (· = 0), digits.dropWhile (· = 0), List.takeWhile_append_dropWhile.symm, ?_, ?_⟩
    · refine List.eq_replicate_iff.mpr ⟨rfl, fun digit member => ?_⟩
      exact of_decide_eq_true (List.mem_takeWhile_imp (p := fun digit => decide (digit = 0)) member)
    · intro first member
      have stop := List.head?_dropWhile_not (fun digit => decide (digit = 0)) digits
      rw [Option.mem_def.mp member] at stop
      exact of_decide_eq_false stop
  have value : Nat.digits base (spelled base digits) = rest.reverse := by
    rw [split, onlyZeros, spelled_zeros, spelled]
    refine Nat.digits_ofDigits base large rest.reverse (fun digit member => ?_) fun filled => ?_
    · exact small digit (split ▸ List.mem_append_right zeros (List.mem_reverse.mp member))
    · rw [List.getLast_reverse]
      exact nonzero _ (List.head_mem_head? _)
  rw [rebased, value, List.reverse_reverse, ← onlyZeros, ← split]

theorem rebased_rebased {base : Nat} (other : Nat) (large : 1 < base) {digits : List Nat}
    (small : ∀ digit ∈ digits, digit < base) : rebased other base (rebased base other digits) = digits := by
  rw [rebased, leadingZeros_rebased, spelled_rebased]
  exact rebased_self large small

end BitCrystal.Data
