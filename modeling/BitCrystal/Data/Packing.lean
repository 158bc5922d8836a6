import BitCrystal.Data.Positional

namespace BitCrystal.Data

/-! # Regrouping bits

Digits of `wide` bits are read one after the other and their bits are written again as
digits of `narrow` bits.  `Packs` is what holds while bits are pending, `Padded` what holds
when the last digit was filled up with zero bits. -/

variable {wide narrow : Nat} {source target : List Nat}

/-- `target` has all bits of `source` but the last `pending` ones, which are those of `left`. -/
structure Packs (wide narrow : Nat) (source target : List Nat) (pending left : Nat) : Prop where
  size : wide * source.length = narrow * target.length + pending
  value : spelled (2 ^ wide) source = spelled (2 ^ narrow) target * 2 ^ pending + left
  bound : left < 2 ^ pending
  small : ∀ digit ∈ target, digit < 2 ^ narrow

namespace Packs

variable {pending left : Nat}

theorem empty : Packs wide narrow [] [] 0 0 :=
  ⟨rfl, rfl, Nat.one_pos, fun _ member => absurd member List.not_mem_nil⟩

theorem read (packs : Packs wide narrow source target pending left) {digit : Nat} (small : digit < 2 ^ wide) :
    Packs wide narrow (source ++ [digit]) target (pending + wide) (left * 2 ^ wide + digit) where
  size := by
    rw [List.length_append, List.length_singleton, Nat.mul_add, packs.size]
    omega
  value := by
    rw [spelled_concat, packs.value, Nat.pow_add]
    ring
  bound := by
    have next : left + 1 ≤ 2 ^ pending := packs.bound
    calc left * 2 ^ wide + digit < left * 2 ^ wide + 2 ^ wide := by omega
      _ = (left + 1) * 2 ^ wide := by ring
      _ ≤ 2 ^ pending * 2 ^ wide := Nat.mul_le_mul_right _ next
      _ = 2 ^ (pending + wide) := (Nat.pow_add 2 pending wide).symm
  small := packs.small

theorem write {left : Nat} (pending : Nat) (packs : Packs wide narrow source target (pending + narrow) left) :
    Packs wide narrow source (target ++ [left / 2 ^ pending]) pending (left % 2 ^ pending) where
  size := by
    rw [packs.size, List.length_append, List.length_singleton, Nat.mul_add]
    omega
  value := by
    have split : left / 2 ^ pending * 2 ^ pending + left % 2 ^ pending = left := by
      rw [Nat.mul_comm]
      exact Nat.div_add_mod left (2 ^ pending)
    rw [packs.value, spelled_concat, Nat.add_mul, Nat.add_assoc, split, Nat.pow_add]
    ring
  bound := Nat.mod_lt _ (Nat.two_pow_pos pending)
  small := by
    have next : left / 2 ^ pending < 2 ^ narrow := by
      have bound := packs.bound
      rw [Nat.pow_add, Nat.mul_comm] at bound
      exact Nat.div_lt_of_lt_mul (by rwa [Nat.mul_comm])
    intro digit member
    rcases List.mem_append.mp member with older | new
    · exact packs.small digit older
    · rw [List.mem_singleton.mp new]
      exact next

end Packs

/-- `target` has the bits of `source`, and fewer than `narrow` zero bits after them. -/
structure Padded (wide narrow : Nat) (source target : List Nat) (spare : Nat) : Prop where
  size : narrow * target.length = wide * source.length + spare
  value : spelled (2 ^ narrow) target = spelled (2 ^ wide) source * 2 ^ spare
  bound : spare < narrow
  small : ∀ digit ∈ target, digit < 2 ^ narrow

namespace Padded

variable {pending left spare : Nat}

theorem of_packs (packs : Packs wide narrow source target 0 left) (positive : 0 < narrow) :
    Padded wide narrow source target 0 where
  size := by
    have size := packs.size
    omega
  value := by
    have bound := packs.bound
    rw [packs.value]
    omega
  bound := positive
  small := packs.small

theorem of_pending (packs : Packs wide narrow source target pending left) (some : 0 < pending)
    (less : pending < narrow) :
    Padded wide narrow source (target ++ [left * 2 ^ (narrow - pending)]) (narrow - pending) where
  size := by
    rw [List.length_append, List.length_singleton, Nat.mul_add, packs.size]
    omega
  value := by
    have width : 2 ^ narrow = 2 ^ pending * 2 ^ (narrow - pending) := by
      rw [← Nat.pow_add, Nat.add_sub_cancel' less.le]
    rw [spelled_concat, packs.value, width]
    ring
  bound := by omega
  small := by
    intro digit member
    rcases List.mem_append.mp member with older | new
    · exact packs.small digit older
    · rw [List.mem_singleton.mp new]
      calc left * 2 ^ (narrow - pending) < 2 ^ pending * 2 ^ (narrow - pending) :=
            Nat.mul_lt_mul_of_pos_right packs.bound (Nat.two_pow_pos _)
        _ = 2 ^ narrow := by rw [← Nat.pow_add, Nat.add_sub_cancel' less.le]

theorem of_unpacked (packs : Packs narrow wide target source pending 0) (less : pending < narrow)
    (small : ∀ digit ∈ target, digit < 2 ^ narrow) : Padded wide narrow source target pending :=
  ⟨packs.size, packs.value, less, small⟩

theorem unique {other : List Nat} {spare' : Nat} (padded : Padded wide narrow source target spare)
    (again : Padded wide narrow source other spare') (positive : 0 < narrow) : target = other ∧ spare = spare' := by
  have first := padded.size
  have second := again.size
  have sameLength : target.length = other.length := by
    have firstBound := padded.bound
    have secondBound := again.bound
    rcases Nat.lt_trichotomy target.length other.length with less | same | more
    · have step := Nat.mul_le_mul_left narrow (Nat.succ_le_of_lt less)
      rw [Nat.mul_succ] at step
      omega
    · exact same
    · have step := Nat.mul_le_mul_left narrow (Nat.succ_le_of_lt more)
      rw [Nat.mul_succ] at step
      omega
  have sameSpare : spare = spare' := by
    rw [sameLength] at first
    omega
  have sameValue : spelled (2 ^ narrow) target = spelled (2 ^ narrow) other := by
    rw [padded.value, again.value, sameSpare]
  exact ⟨spelled_injective (Nat.one_lt_two_pow positive.ne') sameLength padded.small again.small sameValue, sameSpare⟩

theorem unpacked {back : List Nat} (padded : Padded wide narrow source target spare)
    (packs : Packs narrow wide target back pending left) (small : ∀ digit ∈ source, digit < 2 ^ wide)
    (less : pending < wide) (narrower : narrow ≤ wide) : back = source ∧ left = 0 ∧ pending = spare := by
  have first := padded.size
  have second := packs.size
  have bound := padded.bound
  have sameLength : back.length = source.length := by
    rcases Nat.lt_trichotomy back.length source.length with fewer | same | more
    · have step := Nat.mul_le_mul_left wide (Nat.succ_le_of_lt fewer)
      rw [Nat.mul_succ] at step
      omega
    · exact same
    · have step := Nat.mul_le_mul_left wide (Nat.succ_le_of_lt more)
      rw [Nat.mul_succ] at step
      omega
  have sameSpare : pending = spare := by
    rw [sameLength] at second
    omega
  have values : spelled (2 ^ wide) back * 2 ^ pending + left = spelled (2 ^ wide) source * 2 ^ pending := by
    rw [← packs.value, padded.value, sameSpare]
  have nothing : left = 0 := by
    have remainder : (spelled (2 ^ wide) back * 2 ^ pending + left) % 2 ^ pending = left := by
      rw [Nat.mul_add_mod_self_right, Nat.mod_eq_of_lt packs.bound]
    rw [values, Nat.mul_mod_left] at remainder
    exact remainder.symm
  rw [nothing, Nat.add_zero] at values
  have sameValue := Nat.eq_of_mul_eq_mul_right (Nat.two_pow_pos pending) values
  have positive : wide ≠ 0 := by omega
  exact ⟨spelled_injective (Nat.one_lt_two_pow positive) sameLength packs.small small sameValue, nothing, sameSpare⟩

end Padded

end BitCrystal.Data
