import Mathlib.Data.List.Basic
import Mathlib.Data.Nat.ModEq

namespace BitCrystal.Data

/-! # Ring buffers

A list keeps the last of some contents: the entry at place `p` of the contents stands at `p`
modulo the length of the list. -/

variable {α : Type*} {ring data contents : List α}

/-- The entries of `data` take the places from `pos` on. -/
def writeAt (ring : List α) (pos : Nat) (data : List α) : List α :=
  ring.take pos ++ data ++ ring.drop (pos + data.length)

theorem length_writeAt {pos : Nat} (fits : pos + data.length ≤ ring.length) :
    (writeAt ring pos data).length = ring.length := by
  simp only [writeAt, List.length_append, List.length_take, List.length_drop]
  omega

theorem writeAt_getElem?_written {pos i : Nat} (fits : pos + data.length ≤ ring.length) (inside : i < data.length) :
    (writeAt ring pos data)[pos + i]? = data[i]? := by
  have front : (ring.take pos).length = pos := by
    rw [List.length_take]
    omega
  rw [writeAt, List.append_assoc, List.getElem?_append_right (by omega), front, Nat.add_sub_cancel_left,
    List.getElem?_append_left inside]

theorem writeAt_getElem?_before {pos i : Nat} (fits : pos + data.length ≤ ring.length) (before : i < pos) :
    (writeAt ring pos data)[i]? = ring[i]? := by
  have front : i < (ring.take pos).length := by
    rw [List.length_take]
    omega
  rw [writeAt, List.append_assoc, List.getElem?_append_left front, List.getElem?_take_of_lt before]

theorem writeAt_getElem?_after {pos i : Nat} (fits : pos + data.length ≤ ring.length) (after : pos + data.length ≤ i) :
    (writeAt ring pos data)[i]? = ring[i]? := by
  have front : (ring.take pos ++ data).length = pos + data.length := by
    rw [List.length_append, List.length_take]
    omega
  rw [writeAt, List.getElem?_append_right (by omega), front, List.getElem?_drop]
  congr 1
  omega

theorem writeAt_all (same : data.length = ring.length) : writeAt ring 0 data = data := by
  rw [writeAt, List.take_zero, List.nil_append, Nat.zero_add, List.drop_eq_nil_of_le same.ge, List.append_nil]

theorem writeAt_writeAt {pos : Nat} {front back : List α} (fits : pos + front.length + back.length ≤ ring.length) :
    writeAt (writeAt ring pos front) (pos + front.length) back = writeAt ring pos (front ++ back) := by
  have length : (ring.take pos ++ front).length = pos + front.length := by
    rw [List.length_append, List.length_take]
    omega
  have before : (writeAt ring pos front).take (pos + front.length) = ring.take pos ++ front := by
    rw [writeAt, ← length, List.take_left]
  have after : (writeAt ring pos front).drop (pos + front.length + back.length) =
      ring.drop (pos + (front ++ back).length) := by
    rw [writeAt, List.drop_append, List.drop_eq_nil_of_le (by omega), List.nil_append, List.drop_drop, length,
      List.length_append]
    congr 1
    omega
  rw [writeAt, before, after, writeAt, List.append_assoc (ring.take pos)]

theorem writeAt_part {front old back : List α} (same : data.length = old.length) :
    writeAt (front ++ (old ++ back)) front.length data = front ++ (data ++ back) := by
  rw [writeAt, List.take_left, same, ← List.drop_drop, List.drop_left, List.drop_left, List.append_assoc]

/-- The places from `low` to `high` that still fit are those of the contents. -/
def RingHolds (ring contents : List α) (low high : Nat) : Prop :=
  ∀ p, low ≤ p → p < high → high ≤ p + ring.length →
    ∃ value, contents[p]? = some value ∧ ring[p % ring.length]? = some value

theorem RingHolds.empty (ring contents : List α) (place : Nat) : RingHolds ring contents place place := by
  intro p low high
  omega

theorem RingHolds.extend {low high count : Nat} (holds : RingHolds ring contents low high)
    (length : data.length ≤ count) (next : data = (contents.drop high).take data.length)
    (fits : high % ring.length + count ≤ ring.length) :
    RingHolds (writeAt ring (high % ring.length) data) contents low (high + data.length) := by
  have room : high % ring.length + data.length ≤ ring.length := by omega
  intro p from_low below near
  rw [length_writeAt room] at near ⊢
  by_cases written : high ≤ p
  · obtain ⟨i, rfl⟩ := Nat.exists_eq_add_of_le written
    have inside : i < data.length := by omega
    have place : (high + i) % ring.length = high % ring.length + i := by
      rw [Nat.add_mod, Nat.mod_eq_of_lt (show i < ring.length by omega)]
      exact Nat.mod_eq_of_lt (by omega)
    have value : data[i]? = contents[high + i]? := by
      rw [next, List.getElem?_take_of_lt inside, List.getElem?_drop]
    refine ⟨data[i], ?_, ?_⟩
    · rw [← value, List.getElem?_eq_getElem inside]
    · rw [place, writeAt_getElem?_written room inside, List.getElem?_eq_getElem inside]
  · obtain ⟨value, content, stands⟩ := holds p from_low (by omega) (by omega)
    refine ⟨value, content, ?_⟩
    -- A place that is overwritten lies a whole ring behind the new ones.
    have apart : p % ring.length < high % ring.length ∨ high % ring.length + data.length ≤ p % ring.length := by
      by_contra inside
      rw [not_or, Nat.not_lt, Nat.not_le] at inside
      obtain ⟨j, offset⟩ := Nat.exists_eq_add_of_le inside.1
      have small : j < data.length := by omega
      have quotient := Nat.div_add_mod p ring.length
      have quotient' := Nat.div_add_mod high ring.length
      have less : p / ring.length < high / ring.length := by
        by_contra notLess
        have scaled := Nat.mul_le_mul_left ring.length (Nat.not_lt.mp notLess)
        omega
      have scaled := Nat.mul_le_mul_left ring.length (Nat.succ_le_of_lt less)
      rw [Nat.mul_succ] at scaled
      omega
    rcases apart with before | after
    · rw [writeAt_getElem?_before room before, stands]
    · rw [writeAt_getElem?_after room after, stands]

theorem RingHolds.slice {low high p count : Nat} (holds : RingHolds ring contents low high) (from_low : low ≤ p)
    (below : p + count ≤ high) (near : high ≤ p + ring.length) (fits : p % ring.length + count ≤ ring.length) :
    (ring.drop (p % ring.length)).take count = (contents.drop p).take count ∧
      ((contents.drop p).take count).length = count := by
  have each : ∀ i < count, ∃ value, contents[p + i]? = some value ∧ ring[p % ring.length + i]? = some value := by
    intro i inside
    obtain ⟨value, content, stands⟩ := holds (p + i) (by omega) (by omega) (by omega)
    have place : (p + i) % ring.length = p % ring.length + i := by
      rw [Nat.add_mod, Nat.mod_eq_of_lt (show i < ring.length by omega)]
      exact Nat.mod_eq_of_lt (by omega)
    exact ⟨value, content, place ▸ stands⟩
  constructor
  · apply List.ext_getElem?
    intro i
    by_cases inside : i < count
    · obtain ⟨value, content, stands⟩ := each i inside
      rw [List.getElem?_take_of_lt inside, List.getElem?_take_of_lt inside, List.getElem?_drop, List.getElem?_drop,
        content, stands]
    · rw [List.getElem?_eq_none (by rw [List.length_take]; omega),
        List.getElem?_eq_none (by rw [List.length_take]; omega)]
  · rw [List.length_take, List.length_drop]
    cases count with
    | zero => omega
    | succ count =>
        obtain ⟨value, content, _⟩ := each count (Nat.lt_succ_self count)
        obtain ⟨within, _⟩ := List.getElem?_eq_some_iff.mp content
        omega

end BitCrystal.Data
