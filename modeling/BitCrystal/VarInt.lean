import BitCrystal.Serialize
import Mathlib.Data.List.Induction
import Mathlib.Order.Basic

namespace BitCrystal

open Data

/-! # The number system of variable-length integers -/

/-- The first loop of WriteVarInt for an unsigned number, with the room left in `tmp`.
Without room it writes past the end of the buffer. -/
def fillTmp (continuation : Nat) : Nat → Nat → Option Bytes
  | 0, _ => none
  | room + 1, n =>
      let group := UInt8.ofNat (n % 128 + continuation)
      if n ≤ 0x7F then some [group]
      else (fillTmp 0x80 room (n / 128 - 1)).map (group :: ·)

/-- The turns of the loop of GetSizeOfVarInt, which nothing bounds but the number. -/
def varIntTurns (n : Nat) : Nat :=
  if n ≤ 0x7F then 1 else varIntTurns (n / 128 - 1) + 1
termination_by n
decreasing_by omega

/-- All bytes but the last say that another one follows. -/
def CompleteVarInt (bytes : Bytes) : Prop :=
  ∃ digits last, bytes = digits ++ [last] ∧ (∀ digit ∈ digits, 128 ≤ digit.toNat) ∧ last.toNat < 128

/-- One turn of ReadVarInt over the natural numbers. -/
def appendDigit (n : Nat) (chData : UInt8) : Nat :=
  n * 128 + chData.toNat % 128 + if 128 ≤ chData.toNat then 1 else 0

/-- The number that bytes stand for. It is at least every number on the way to it,
so that ReadVarInt overflows exactly when this number is too large for the type. -/
def varIntNumber (bytes : Bytes) : Nat := bytes.foldl appendDigit 0

/-! ## The writer's buffer -/

/-- A number of at most `7 * room` bits never runs out of room. -/
theorem fillTmp_eq {room n : Nat} (continuation : Nat) (enough : n < 128 ^ (room + 1)) :
    fillTmp continuation (room + 1) n = some (varIntGroups continuation (room + 1) n) := by
  induction room generalizing continuation n with
  | zero =>
      have small : n ≤ 0x7F := by omega
      have group : ((n : Int) % 128).toNat = n % 128 := by omega
      rw [fillTmp, varIntGroups, if_pos small, if_pos (by omega), group]
  | succ room ih =>
      have group : ((n : Int) % 128).toNat = n % 128 := by omega
      rw [fillTmp, varIntGroups, group]
      by_cases small : n ≤ 0x7F
      · rw [if_pos small, if_pos (by omega)]
      · have quotient : n / 128 < 128 ^ (room + 1) :=
          Nat.div_lt_of_lt_mul (by rw [Nat.mul_comm, ← Nat.pow_succ]; exact enough)
        have next : (n : Int) / 128 - 1 = ((n / 128 - 1 : Nat) : Int) := by omega
        rw [if_neg small, if_neg (by omega), next, ih 0x80 (by omega), Option.map_some]

theorem varIntTurns_eq {room n : Nat} (enough : n < 128 ^ (room + 1)) : varIntTurns n = countGroups (room + 1) n := by
  induction room generalizing n with
  | zero =>
      have small : n ≤ 0x7F := by omega
      rw [varIntTurns, countGroups, if_pos small, if_pos (by omega)]
  | succ room ih =>
      rw [varIntTurns, countGroups]
      by_cases small : n ≤ 0x7F
      · rw [if_pos small, if_pos (by omega)]
      · have quotient : n / 128 < 128 ^ (room + 1) :=
          Nat.div_lt_of_lt_mul (by rw [Nat.mul_comm, ← Nat.pow_succ]; exact enough)
        have next : (n : Int) / 128 - 1 = ((n / 128 - 1 : Nat) : Int) := by omega
        rw [if_neg small, if_neg (by omega), next, ih (by omega)]

/-- The buffer of a type holds a digit for each seven of its bits. -/
theorem tmp_capacity {bits : Nat} (positive : 0 < bits) :
    ∃ room, (bits + 6) / 7 = room + 1 ∧ 2 ^ bits ≤ 128 ^ (room + 1) := by
  refine ⟨(bits + 6) / 7 - 1, by omega, ?_⟩
  have power : 128 ^ ((bits + 6) / 7 - 1 + 1) = 2 ^ (7 * ((bits + 6) / 7 - 1 + 1)) := by
    rw [Nat.pow_mul]
  rw [power]
  exact Nat.pow_le_pow_right (by decide) (by omega)

/-! ## Every complete string is an encoding -/

private theorem byte_of_digit {digit : UInt8} (continues : 128 ≤ digit.toNat) :
    UInt8.ofNat (digit.toNat % 128 + 0x80) = digit := by
  have value : digit.toNat % 128 + 0x80 = digit.toNat := by
    have := digit.toNat_lt
    omega
  rw [value, UInt8.ofNat_toNat]

private theorem byte_of_last {last : UInt8} (stops : last.toNat < 128) :
    UInt8.ofNat (last.toNat % 128 + 0) = last := by
  rw [Nat.add_zero, Nat.mod_eq_of_lt stops, UInt8.ofNat_toNat]

private theorem foldl_appendDigit {digits : Bytes} (continues : ∀ digit ∈ digits, 128 ≤ digit.toNat) :
    digits = [] ∧ digits.foldl appendDigit 0 = 0 ∨
      digits ≠ [] ∧ 128 ^ (digits.length - 1) ≤ digits.foldl appendDigit 0 := by
  induction digits using List.reverseRecOn with
  | nil => exact .inl ⟨rfl, rfl⟩
  | append_singleton digits digit ih =>
      refine .inr ⟨by simp, ?_⟩
      have high : 128 ≤ digit.toNat := continues digit (by simp)
      rw [List.foldl_append, List.foldl_cons, List.foldl_nil, appendDigit, if_pos high, List.length_append,
        List.length_singleton, Nat.add_sub_cancel]
      rcases ih fun other member => continues other (by simp [member]) with ⟨rfl, zero⟩ | ⟨filled, large⟩
      · rw [zero]
        simp
      · have length : digits.length = digits.length - 1 + 1 := by
          have := List.length_pos_iff.mpr filled
          omega
        rw [length, Nat.pow_succ]
        have scaled := Nat.mul_le_mul_right 128 large
        omega

private theorem varIntGroups_digits {digits : Bytes} {room : Nat}
    (continues : ∀ digit ∈ digits, 128 ≤ digit.toNat) (filled : digits ≠ []) (fits : digits.length ≤ room) :
    varIntGroups 0x80 room (digits.foldl appendDigit 0 - 1 : Nat) = digits.reverse := by
  induction digits using List.reverseRecOn generalizing room with
  | nil => exact absurd rfl filled
  | append_singleton digits digit ih =>
      have high : 128 ≤ digit.toNat := continues digit (by simp)
      have before : ∀ other ∈ digits, 128 ≤ other.toNat := fun other member => continues other (by simp [member])
      obtain ⟨left, rfl⟩ : ∃ left, room = left + 1 := by
        refine ⟨room - 1, ?_⟩
        rw [List.length_append, List.length_singleton] at fits
        omega
      rw [List.length_append, List.length_singleton] at fits
      rw [List.foldl_append, List.foldl_cons, List.foldl_nil, appendDigit, if_pos high, Nat.add_sub_cancel,
        List.reverse_append, List.reverse_singleton, List.singleton_append, varIntGroups]
      generalize value : digits.foldl appendDigit 0 = n
      have low : (((n * 128 + digit.toNat % 128 : Nat) : Int) % 128).toNat = digit.toNat % 128 := by omega
      rw [low, byte_of_digit high]
      rcases foldl_appendDigit before with ⟨rfl, zero⟩ | ⟨more, large⟩
      · rw [if_pos (by omega)]
        rfl
      · have nonzero : 0 < n := Nat.lt_of_lt_of_le (Nat.pow_pos (by decide)) (value ▸ large)
        have next : ((n * 128 + digit.toNat % 128 : Nat) : Int) / 128 - 1 = ((n - 1 : Nat) : Int) := by omega
        rw [if_neg (by omega), next, ← value, ih before more (by omega)]

/-- A complete string of bytes is what is written for its number. -/
theorem writeVarInt_number {bits : Nat} (positive : 0 < bits) {bytes : Bytes} (complete : CompleteVarInt bytes)
    (fits : varIntNumber bytes < 2 ^ bits) : writeVarInt bits (varIntNumber bytes : Nat) = bytes := by
  obtain ⟨digits, last, rfl, continues, stops⟩ := complete
  obtain ⟨room, roomEq, -⟩ := tmp_capacity positive
  have split : varIntNumber (digits ++ [last]) = digits.foldl appendDigit 0 * 128 + last.toNat % 128 := by
    rw [varIntNumber, List.foldl_append, List.foldl_cons, List.foldl_nil, appendDigit, if_neg (by omega),
      Nat.add_zero]
  rw [split] at fits ⊢
  generalize value : digits.foldl appendDigit 0 = n at fits ⊢
  have low : (((n * 128 + last.toNat % 128 : Nat) : Int) % 128).toNat = last.toNat % 128 := by omega
  rw [writeVarInt, roomEq, varIntGroups, low, byte_of_last stops]
  rcases foldl_appendDigit continues with ⟨rfl, zero⟩ | ⟨filled, large⟩
  · rw [if_pos (by omega)]
    rfl
  · rw [value] at large
    have nonzero : 0 < n := Nat.lt_of_lt_of_le (Nat.pow_pos (by decide)) large
    have next : ((n * 128 + last.toNat % 128 : Nat) : Int) / 128 - 1 = ((n - 1 : Nat) : Int) := by omega
    -- one digit more than the buffer holds would be too large for the type
    have enough : digits.length ≤ room := by
      have scaled := Nat.mul_le_mul_right 128 large
      have length : digits.length - 1 + 1 = digits.length := by
        have := List.length_pos_iff.mpr filled
        omega
      rw [← Nat.pow_succ, Nat.succ_eq_add_one, length] at scaled
      have power : 2 ^ (7 * digits.length) < 2 ^ bits := by
        rw [Nat.pow_mul, show (2 : Nat) ^ 7 = 128 from rfl]
        omega
      have exponents := (Nat.pow_lt_pow_iff_right (by decide)).mp power
      omega
    rw [if_neg (by omega), next, ← value, varIntGroups_digits continues filled enough, List.reverse_cons,
      List.reverse_reverse]

/-- The codec of each type is a bijection between its numbers and the complete strings that do not
overflow it, the buffer of the writer holds all of them, and the size function counts their bytes. -/
theorem varInt_bijective (bits : Nat) (positive : 0 < bits) :
    (∀ n < 2 ^ bits, Reads (readVarInt bits) (writeVarInt bits (n : Nat)) n) ∧
    (∀ n < 2 ^ bits, (writeVarInt bits (n : Nat)).length = varIntTurns n) ∧
    (∀ n < 2 ^ bits, ∃ tmp, fillTmp 0 ((bits + 6) / 7) n = some tmp ∧ writeVarInt bits (n : Nat) = tmp.reverse) ∧
    ∀ bytes, CompleteVarInt bytes → varIntNumber bytes < 2 ^ bits →
      ∃! n, n < 2 ^ bits ∧ writeVarInt bits (n : Nat) = bytes := by
  obtain ⟨room, roomEq, capacity⟩ := tmp_capacity positive
  refine ⟨fun n fits => readVarInt_reads bits positive fits, fun n fits => ?_, fun n fits => ?_,
    fun bytes complete fits => ⟨varIntNumber bytes, ⟨fits, writeVarInt_number positive complete fits⟩, ?_⟩⟩
  · rw [writeVarInt_length, getSizeOfVarInt, roomEq, varIntTurns_eq (Nat.lt_of_lt_of_le fits capacity)]
  · rw [roomEq]
    refine ⟨_, fillTmp_eq 0 (Nat.lt_of_lt_of_le fits capacity), ?_⟩
    rw [writeVarInt, roomEq]
  · rintro n ⟨small, written⟩
    have first := readVarInt_reads bits positive small
    have second := readVarInt_reads bits positive fits
    rw [writeVarInt_number positive complete fits] at second
    rw [written] at first
    exact first.unique second

theorem varInt_bijective_uint64 : ∃! n, n < 2 ^ 64 ∧ writeVarInt 64 (n : Nat) = [0x8E, 0xFE, 0xFE, 0xFF, 0x00] :=
  (varInt_bijective 64 (by decide)).2.2.2 _
    ⟨[0x8E, 0xFE, 0xFE, 0xFF], 0x00, rfl, by decide +kernel, by decide +kernel⟩ (by decide +kernel)

end BitCrystal
