import BitCrystal.BigNum

namespace BitCrystal

open Data

/-! # The bytes of a big number -/

theorem ofLittleEndian_append (front back : Bytes) :
    ofLittleEndian (front ++ back) = ofLittleEndian front + 256 ^ front.length * ofLittleEndian back := by
  induction front with
  | nil => simp [ofLittleEndian]
  | cons first front ih =>
      rw [List.cons_append, ofLittleEndian, ofLittleEndian, ih, List.length_cons, Nat.pow_succ]
      ring

theorem ofDigits_toNat (bytes : Bytes) : Nat.ofDigits 256 (bytes.map UInt8.toNat) = ofLittleEndian bytes := by
  induction bytes with
  | nil => rfl
  | cons first rest ih => rw [List.map_cons, Nat.ofDigits_cons, ih, ofLittleEndian]

theorem digits_ofLittleEndian {front : Bytes} {last : UInt8} (nonzero : last ≠ 0) :
    Nat.digits 256 (ofLittleEndian (front ++ [last])) = (front ++ [last]).map UInt8.toNat := by
  rw [← ofDigits_toNat]
  refine Nat.digits_ofDigits 256 (by decide) _ (fun digit member => ?_) fun filled => ?_
  · obtain ⟨byte, -, rfl⟩ := List.mem_map.mp member
    exact byte.toNat_lt
  · simp only [List.map_append, List.map_cons, List.map_nil, List.getLast_append_singleton]
    intro zero
    exact nonzero (UInt8.toNat_inj.mp zero)

theorem sign_clear_iff : ∀ byte : UInt8, byte &&& 0x80 = 0 ↔ byte < 0x80 := forall_byte (by decide +kernel)

namespace CBigNum

theorem magnitude_eq (front : Bytes) {last : UInt8} (nonzero : last ≠ 0) :
    magnitude (ofLittleEndian (front ++ [last])) =
      if last < 0x80 then front ++ [last] else front ++ [last] ++ [0] := by
  rw [magnitude, digits_ofLittleEndian nonzero, map_ofNat_toNat]
  simp only [List.getLast?_append, List.getLast?_singleton, Option.some_or]

theorem exists_bytes {n : Nat} (positive : n ≠ 0) :
    ∃ front last, last ≠ 0 ∧ n = ofLittleEndian (front ++ [last]) := by
  have filled : Nat.digits 256 n ≠ [] := Nat.digits_ne_nil_iff_ne_zero.mpr positive
  have small (digit : Nat) (member : digit ∈ Nat.digits 256 n) : digit < 256 :=
    Nat.digits_lt_base (by decide) member
  refine ⟨(Nat.digits 256 n).dropLast.map UInt8.ofNat, UInt8.ofNat ((Nat.digits 256 n).getLast filled), ?_, ?_⟩
  · intro zero
    have value := UInt8.toNat_ofNat'.trans (Nat.mod_eq_of_lt (small _ (List.getLast_mem filled)))
    rw [zero] at value
    exact Nat.getLast_digit_ne_zero 256 positive value.symm
  · rw [← List.map_singleton, ← List.map_append, List.dropLast_append_getLast, ← ofDigits_toNat,
      map_toNat_ofNat small, Nat.ofDigits_digits]

theorem magnitude_zero : magnitude 0 = [] := rfl

theorem setvch_append {front : Bytes} {last : UInt8} (positive : last < 0x80) :
    setvch (front ++ [last]) = ofLittleEndian (front ++ [last]) := by
  simp only [setvch, List.getLast?_append, List.getLast?_singleton, Option.some_or, if_pos positive]

theorem setvch_append_neg {front : Bytes} {last : UInt8} (negative : ¬ last < 0x80) :
    setvch (front ++ [last]) = -((ofLittleEndian front + 256 ^ front.length * (last.toNat - 128) : Nat) : Int) := by
  have large : 128 ≤ last.toNat := by
    rw [UInt8.lt_iff_toNat_lt] at negative
    exact Nat.not_lt.mp negative
  have split : ofLittleEndian (front ++ [last]) =
      ofLittleEndian front + 256 ^ front.length * (last.toNat - 128) + 128 * 256 ^ front.length := by
    rw [ofLittleEndian_append, ofLittleEndian, ofLittleEndian]
    obtain ⟨rest, value⟩ := Nat.exists_eq_add_of_le large
    rw [value, Nat.add_sub_cancel_left]
    ring
  simp only [setvch, List.getLast?_append, List.getLast?_singleton, Option.some_or, if_neg negative,
    List.length_append, List.length_singleton, Nat.add_sub_cancel, split]
  push_cast
  ring

theorem or_sign {last : UInt8} (small : last < 0x80) : (last ||| 0x80).toNat = last.toNat + 128 := by
  have below : last.toNat < 2 ^ 7 := UInt8.lt_iff_toNat_lt.mp small
  rw [UInt8.toNat_or, Nat.or_comm]
  exact (Nat.two_pow_add_eq_or_of_lt below 1).symm.trans (Nat.add_comm _ _)

theorem getvch_length_le_iff (n : Int) (k : Nat) : (getvch n).length ≤ k + 1 ↔ n.natAbs < 128 * 256 ^ k := by
  by_cases zero : n = 0
  · subst zero
    simp [getvch, magnitude_zero]
  · obtain ⟨front, last, nonzero, value⟩ := exists_bytes (Int.natAbs_ne_zero.mpr zero)
    have length : (getvch n).length = (magnitude n.natAbs).length := by
      rw [getvch]
      split
      · rw [value, magnitude_eq front nonzero]
        split <;> simp
      · rfl
    have low := ofLittleEndian_lt front
    have whole : n.natAbs = ofLittleEndian front + 256 ^ front.length * last.toNat := by
      rw [value, ofLittleEndian_append, ofLittleEndian, ofLittleEndian]
      rfl
    have positive : 1 ≤ last.toNat := Nat.pos_of_ne_zero fun none => nonzero (UInt8.toNat_inj.mp none)
    have byte := last.toNat_lt
    rw [length, value, magnitude_eq front nonzero, ← value, whole]
    by_cases small : last < 0x80
    · have bound : last.toNat < 128 := UInt8.lt_iff_toNat_lt.mp small
      rw [if_pos small, List.length_append, List.length_singleton, Nat.add_le_add_iff_right]
      constructor
      · intro short
        calc ofLittleEndian front + 256 ^ front.length * last.toNat < 256 ^ front.length * (last.toNat + 1) := by
              rw [Nat.mul_succ]
              omega
          _ ≤ 256 ^ k * 128 := Nat.mul_le_mul (Nat.pow_le_pow_right (by decide) short) bound
          _ = 128 * 256 ^ k := Nat.mul_comm _ _
      · intro less
        by_contra long
        have more : 256 ^ (k + 1) ≤ 256 ^ front.length := Nat.pow_le_pow_right (by decide) (by omega)
        have scaled := Nat.mul_le_mul_left (256 ^ front.length) positive
        rw [Nat.pow_succ] at more
        omega
    · have bound : 128 ≤ last.toNat := Nat.not_lt.mp fun less => small (UInt8.lt_iff_toNat_lt.mpr less)
      rw [if_neg small, List.length_append, List.length_append, List.length_singleton, List.length_singleton,
        Nat.add_le_add_iff_right]
      constructor
      · intro short
        calc ofLittleEndian front + 256 ^ front.length * last.toNat < 256 ^ front.length * (last.toNat + 1) := by
              rw [Nat.mul_succ]
              omega
          _ ≤ 256 ^ front.length * 256 := Nat.mul_le_mul_left _ byte
          _ = 256 ^ (front.length + 1) := (Nat.pow_succ ..).symm
          _ ≤ 256 ^ k := Nat.pow_le_pow_right (by decide) short
          _ ≤ 128 * 256 ^ k := Nat.le_mul_of_pos_left _ (by decide)
      · intro less
        by_contra long
        have more : 256 ^ k ≤ 256 ^ front.length := Nat.pow_le_pow_right (by decide) (by omega)
        have scaled := Nat.mul_le_mul more bound
        omega

theorem setvch_getvch (n : Int) : setvch (getvch n) = n := by
  by_cases zero : n = 0
  · subst zero
    rfl
  · obtain ⟨front, last, nonzero, value⟩ := exists_bytes (Int.natAbs_ne_zero.mpr zero)
    have written := magnitude_eq front nonzero
    rw [← value] at written
    rw [getvch, written]
    by_cases negative : n < 0
    · rw [if_pos negative]
      by_cases small : last < 0x80
      · have large : ¬ last ||| 0x80 < 0x80 := by
          rw [UInt8.lt_iff_toNat_lt, or_sign small]
          exact Nat.not_lt.mpr (Nat.le_add_left _ _)
        have magnitudes : ofLittleEndian front + 256 ^ front.length * last.toNat = n.natAbs := by
          rw [value, ofLittleEndian_append, ofLittleEndian, ofLittleEndian]
          rfl
        simp only [if_pos small, List.dropLast_concat, List.getLast?_append, List.getLast?_singleton, Option.some_or,
          Option.map_some, Option.toList_some]
        rw [setvch_append_neg large, or_sign small, Nat.add_sub_cancel, magnitudes]
        omega
      · have zeroes : (0 : UInt8) ||| 0x80 = 0x80 := rfl
        simp only [if_neg small, List.dropLast_concat, List.getLast?_append, List.getLast?_singleton, Option.some_or,
          Option.map_some, Option.toList_some, zeroes]
        rw [setvch_append_neg (by decide), show (0x80 : UInt8).toNat - 128 = 0 from rfl, Nat.mul_zero, Nat.add_zero,
          ← value]
        omega
    · rw [if_neg negative]
      by_cases small : last < 0x80
      · rw [if_pos small, setvch_append small, ← value]
        omega
      · have extended : ofLittleEndian (front ++ [last] ++ [0]) = n.natAbs := by
          rw [ofLittleEndian_append, ← value]
          simp [ofLittleEndian]
        rw [if_neg small, setvch_append (by decide), extended]
        omega

end CBigNum

end BitCrystal
