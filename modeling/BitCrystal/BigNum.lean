import BitCrystal.Primitives
import Mathlib.Data.Nat.Digits.Lemmas

namespace BitCrystal

open Data

/-! # Numbers on the script stack

The value of a CBigNum is an integer; on the stack it is a sign and a magnitude,
least significant byte first, with the sign in the highest bit of the last byte. -/

namespace CBigNum

/-- `setvch`: BN_mpi2bn takes the highest bit for the sign and clears it. -/
def setvch (vch : Bytes) : Int :=
  match vch.getLast? with
  | none => 0
  | some last =>
      if last < 0x80 then ofLittleEndian vch
      else -(ofLittleEndian vch - 0x80 * 256 ^ (vch.length - 1))

/-- The bytes BN_bn2mpi writes for the magnitude, one more when the highest bit is taken. -/
def magnitude (n : Nat) : Bytes :=
  let bytes := (Nat.digits 256 n).map UInt8.ofNat
  match bytes.getLast? with
  | none => []
  | some last => if last < 0x80 then bytes else bytes ++ [0]

def getvch (n : Int) : Bytes :=
  let bytes := magnitude n.natAbs
  if n < 0 then bytes.dropLast ++ (bytes.getLast?.map fun last => last ||| 0x80).toList
  else bytes

/-- The largest and the smallest `int`. -/
def INT_MAX : Int := 2 ^ 31 - 1
def INT_MIN : Int := -2 ^ 31

/-- `getint`, which saturates. -/
def getint (n : Int) : Int :=
  if 0 ≤ n then if INT_MAX < n then INT_MAX else n
  else if INT_MAX < -n then INT_MIN else n

end CBigNum

def nMaxNumSize : Nat := 4

/-- The exception of CastToBigNum. -/
def bigNumError : Failure := .exception "CastToBigNum() : overflow"

def castToBigNum (vch : Bytes) : Except Failure Int :=
  if nMaxNumSize < vch.length then .error bigNumError
  else .ok (CBigNum.setvch (CBigNum.getvch (CBigNum.setvch vch)))

namespace CBigNum

theorem ofLittleEndian_lt (bytes : Bytes) : ofLittleEndian bytes < 256 ^ bytes.length := by
  induction bytes with
  | nil => exact Nat.one_pos
  | cons first rest ih =>
      have low := first.toNat_lt
      rw [ofLittleEndian, List.length_cons, Nat.pow_succ]
      omega

theorem setvch_natAbs_lt (vch : Bytes) : (setvch vch).natAbs < 256 ^ vch.length := by
  have whole := ofLittleEndian_lt vch
  unfold setvch
  cases found : vch.getLast? with
  | none =>
      simp
  | some last =>
      have nonempty : vch ≠ [] := by
        intro empty
        simp [empty] at found
      obtain ⟨n, length⟩ : ∃ n, vch.length = n + 1 :=
        Nat.exists_eq_add_one_of_ne_zero (by simpa using nonempty)
      rw [length, Nat.pow_succ] at whole
      simp only [length, Nat.add_sub_cancel, Nat.pow_succ]
      have cast : (256 : Int) ^ n = (256 ^ n : Nat) := by push_cast; rfl
      split
      · omega
      · rw [cast]
        omega

theorem magnitude_length_le {n k : Nat} (bounded : n < 256 ^ k) : (magnitude n).length ≤ k + 1 := by
  have digits : (Nat.digits 256 n).length ≤ k :=
    (Nat.digits_length_le_iff (by decide) n).mpr bounded
  unfold magnitude
  dsimp only
  split
  · simp
  · split
    · simp only [List.length_map]
      omega
    · simp only [List.length_append, List.length_map, List.length_singleton]
      omega

theorem getvch_length_le {n : Int} {k : Nat} (bounded : n.natAbs < 256 ^ k) :
    (getvch n).length ≤ k + 1 := by
  have length := magnitude_length_le bounded
  unfold getvch
  dsimp only
  split
  · cases found : (magnitude n.natAbs).getLast? with
    | none =>
        have empty := List.getLast?_eq_none_iff.mp found
        simp [empty]
    | some last =>
        have nonempty : (magnitude n.natAbs).length ≠ 0 := by
          intro empty
          simp [List.length_eq_zero_iff.mp empty] at found
        simp only [Option.map_some, Option.toList_some, List.length_append, List.length_dropLast,
          List.length_singleton]
        omega
  · exact length

end CBigNum

theorem castToBigNum_sat (vch : Bytes) :
    Sat (castToBigNum vch) (fun n => n.natAbs < 256 ^ 5) (· = bigNumError) := by
  unfold castToBigNum
  refine Sat.ite (fun _ => rfl) fun short => ?_
  have read := CBigNum.setvch_natAbs_lt vch
  have power : 256 ^ vch.length ≤ 256 ^ 4 :=
    Nat.pow_le_pow_right (by decide) (Nat.not_lt.mp short)
  have written := CBigNum.getvch_length_le (Nat.lt_of_lt_of_le read power)
  exact Nat.lt_of_lt_of_le (CBigNum.setvch_natAbs_lt _) (Nat.pow_le_pow_right (by decide) written)

end BitCrystal
