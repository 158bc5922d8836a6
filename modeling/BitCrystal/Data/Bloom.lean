import Mathlib.Data.Nat.Bitwise
import Mathlib.Data.Set.Lattice

namespace BitCrystal.Data

/-! # Bloom filters -/

/-! ## Bits of a list of bytes -/

/-- The places of the bits that are set; byte `k` has the places from `8 * k` on. -/
def setBits (data : List UInt8) : Set Nat :=
  { place | ∃ byte, data[place / 8]? = some byte ∧ byte.toNat.testBit (place % 8) = true }

theorem and_mask_eq_zero_iff {byte mask : UInt8} {i : Nat} (single : mask.toNat = 2 ^ i) :
    byte &&& mask = 0 ↔ byte.toNat.testBit i = false := by
  have value : (byte &&& mask).toNat = (byte.toNat.testBit i).toNat * 2 ^ i := by
    rw [UInt8.toNat_and, single, Nat.and_two_pow]
  have zero : (byte &&& mask) = 0 ↔ (byte &&& mask).toNat = 0 := by
    rw [← UInt8.toNat_inj]
    rfl
  rw [zero, value]
  cases byte.toNat.testBit i <;> simp

theorem mem_setBits_iff {data : List UInt8} {place : Nat} {byte mask : UInt8} (here : data[place / 8]? = some byte)
    (single : mask.toNat = 2 ^ (place % 8)) : place ∈ setBits data ↔ byte &&& mask ≠ 0 := by
  rw [ne_eq, and_mask_eq_zero_iff single, Bool.not_eq_false]
  constructor
  · rintro ⟨other, there, isSet⟩
    obtain rfl : byte = other := Option.some.inj (here.symm.trans there)
    exact isSet
  · intro isSet
    exact ⟨byte, here, isSet⟩

theorem setBits_set {data : List UInt8} {place : Nat} {byte mask : UInt8} (here : data[place / 8]? = some byte)
    (single : mask.toNat = 2 ^ (place % 8)) :
    setBits (data.set (place / 8) (byte ||| mask)) = insert place (setBits data) := by
  obtain ⟨within, _⟩ := List.getElem?_eq_some_iff.mp here
  ext other
  rw [Set.mem_insert_iff]
  by_cases same : other / 8 = place / 8
  · have bit : (byte ||| mask).toNat.testBit (other % 8) =
        (byte.toNat.testBit (other % 8) || decide (place % 8 = other % 8)) := by
      rw [UInt8.toNat_or, Nat.testBit_or, single, Nat.testBit_two_pow]
    have equal : other = place ↔ place % 8 = other % 8 := by omega
    simp only [setBits, Set.mem_ofPred_eq, same, List.getElem?_set_self within, here, Option.some.injEq,
      exists_eq_left', bit, equal, Bool.or_eq_true, decide_eq_true_eq]
    exact or_comm
  · have apart : other ≠ place := fun equal => same (by rw [equal])
    simp only [setBits, Set.mem_ofPred_eq, List.getElem?_set_ne (Ne.symm same), apart, false_or]

theorem mem_setBits_full {place : Nat} (within : place < 8) : place ∈ setBits [0xff] := by
  have first : place / 8 = 0 := by omega
  refine ⟨0xff, by rw [first]; rfl, ?_⟩
  rw [Nat.mod_eq_of_lt within]
  have each : ∀ bit < 8, (0xff : UInt8).toNat.testBit bit = true := by decide
  exact each place within

/-! ## Keys -/

namespace Bloom

variable {κ ι : Type*} {places : κ → Set ι} {bits more : Set ι} {key : κ}

def Has (places : κ → Set ι) (bits : Set ι) (key : κ) : Prop := places key ⊆ bits

theorem Has.mono (has : Has places bits key) (grown : bits ⊆ more) : Has places more key := has.trans grown

theorem has_insert (places : κ → Set ι) (bits : Set ι) (key : κ) : Has places (bits ∪ places key) key :=
  Set.subset_union_right

end Bloom

end BitCrystal.Data
