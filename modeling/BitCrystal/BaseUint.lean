import BitCrystal.Base58
import BitCrystal.Data.Limbs
import BitCrystal.Data.Decoding

namespace BitCrystal

open Data

/-! # The fixed-width integers of uint256.h -/

/-- `base_uint<BITS>` with `WIDTH = BITS/32` words, the lowest of them first. -/
@[ext] structure BaseUint (WIDTH : Nat) where
  pn : List UInt32
  width : pn.length = WIDTH
  /-- An array has a first element. -/
  positive : 0 < WIDTH
deriving DecidableEq

namespace BaseUint

/-! ## The loops over the words -/

def addLoop : (carry : UInt64) → (pn b : List UInt32) → List UInt32
  | carry, p :: pn, q :: b =>
      let n := carry + p.toUInt64 + q.toUInt64
      (n &&& 0xffffffff).toUInt32 :: addLoop (n >>> 32) pn b
  | _, _, _ => []

def incrementLoop : List UInt32 → List UInt32
  | [] => []
  | p :: pn =>
      let p := p + 1
      if p = 0 ∧ pn ≠ [] then p :: incrementLoop pn else p :: pn

def decrementLoop : List UInt32 → List UInt32
  | [] => []
  | p :: pn =>
      let p := p - 1
      if p = -1 ∧ pn ≠ [] then p :: decrementLoop pn else p :: pn

/-- `pn[i] |= word` -/
def orAt (pn : List UInt32) (i : Nat) (word : UInt32) : List UInt32 := pn.modify i (· ||| word)

/-- A turn of `operator<<=` by `32 * k + shift`. -/
def shiftLeftTurn (WIDTH k : Nat) (shift : UInt32) (a pn : List UInt32) (i : Nat) : List UInt32 :=
  let pn := if i + k + 1 < WIDTH ∧ shift ≠ 0 then orAt pn (i + k + 1) (a.getD i 0 >>> (32 - shift)) else pn
  if i + k < WIDTH then orAt pn (i + k) (a.getD i 0 <<< shift) else pn

/-- A turn of `operator>>=` by `32 * k + shift`. -/
def shiftRightTurn (k : Nat) (shift : UInt32) (a pn : List UInt32) (i : Nat) : List UInt32 :=
  let pn := if k + 1 ≤ i ∧ shift ≠ 0 then orAt pn (i - k - 1) (a.getD i 0 <<< (32 - shift)) else pn
  if k ≤ i then orAt pn (i - k) (a.getD i 0 >>> shift) else pn

/-- The loop of the four order operators: from the highest word down, the first that decides. -/
def scanDown (wins loses : UInt32 → UInt32 → Bool) (tie : Bool) (a b : List UInt32) : Nat → Bool
  | 0 => tie
  | i + 1 =>
      if wins (a.getD i 0) (b.getD i 0) then true
      else if loses (a.getD i 0) (b.getD i 0) then false
      else scanDown wins loses tie a b i

def equalLoop : (a b : List UInt32) → Bool
  | p :: a, q :: b => if p ≠ q then false else equalLoop a b
  | _, _ => true

theorem length_addLoop {carry : UInt64} {pn b : List UInt32} (same : pn.length = b.length) :
    (addLoop carry pn b).length = pn.length := by
  induction pn generalizing b carry with
  | nil => rfl
  | cons p pn ih =>
      cases b with
      | nil => contradiction
      | cons q b => rw [addLoop, List.length_cons, List.length_cons, ih (Nat.succ.inj same)]

theorem length_incrementLoop (pn : List UInt32) : (incrementLoop pn).length = pn.length := by
  induction pn with
  | nil => rfl
  | cons p pn ih =>
      rw [incrementLoop]
      split
      · rw [List.length_cons, List.length_cons, ih]
      · rfl

theorem length_decrementLoop (pn : List UInt32) : (decrementLoop pn).length = pn.length := by
  induction pn with
  | nil => rfl
  | cons p pn ih =>
      rw [decrementLoop]
      split
      · rw [List.length_cons, List.length_cons, ih]
      · rfl

@[simp] theorem length_orAt (pn : List UInt32) (i : Nat) (word : UInt32) : (orAt pn i word).length = pn.length :=
  List.length_modify ..

theorem length_shiftLeftTurn {WIDTH k : Nat} {shift : UInt32} {a pn : List UInt32} (i : Nat) :
    (shiftLeftTurn WIDTH k shift a pn i).length = pn.length := by
  unfold shiftLeftTurn
  split_ifs <;> simp

theorem length_shiftRightTurn {k : Nat} {shift : UInt32} {a pn : List UInt32} (i : Nat) :
    (shiftRightTurn k shift a pn i).length = pn.length := by
  unfold shiftRightTurn
  split_ifs <;> simp

theorem length_foldl {turn : List UInt32 → Nat → List UInt32} (turns : ∀ pn i, (turn pn i).length = pn.length)
    (indices : List Nat) (pn : List UInt32) : (indices.foldl turn pn).length = pn.length := by
  induction indices generalizing pn with
  | nil => rfl
  | cons i indices ih => rw [List.foldl_cons, ih, turns]

/-! ## The operators -/

variable {WIDTH : Nat}

def complement (x : BaseUint WIDTH) : BaseUint WIDTH where
  pn := x.pn.map (~~~ ·)
  width := by rw [List.length_map, x.width]
  positive := x.positive

/-- `operator+=` -/
def add (x b : BaseUint WIDTH) : BaseUint WIDTH where
  pn := addLoop 0 x.pn b.pn
  width := by rw [length_addLoop (x.width.trans b.width.symm), x.width]
  positive := x.positive

/-- `operator++` -/
def increment (x : BaseUint WIDTH) : BaseUint WIDTH where
  pn := incrementLoop x.pn
  width := by rw [length_incrementLoop, x.width]
  positive := x.positive

/-- `operator--` -/
def decrement (x : BaseUint WIDTH) : BaseUint WIDTH where
  pn := decrementLoop x.pn
  width := by rw [length_decrementLoop, x.width]
  positive := x.positive

/-- Unary minus. -/
def neg (x : BaseUint WIDTH) : BaseUint WIDTH := x.complement.increment

/-- `operator-=` -/
def sub (x b : BaseUint WIDTH) : BaseUint WIDTH := x.add b.neg

/-- `operator<<=` -/
def shiftLeft (x : BaseUint WIDTH) (shift : UInt32) : BaseUint WIDTH where
  pn := (List.range WIDTH).foldl (shiftLeftTurn WIDTH (shift / 32).toNat (shift % 32) x.pn) (List.replicate WIDTH 0)
  width := by rw [length_foldl fun _ i => length_shiftLeftTurn i, List.length_replicate]
  positive := x.positive

/-- `operator>>=` -/
def shiftRight (x : BaseUint WIDTH) (shift : UInt32) : BaseUint WIDTH where
  pn := (List.range WIDTH).foldl (shiftRightTurn (shift / 32).toNat (shift % 32) x.pn) (List.replicate WIDTH 0)
  width := by rw [length_foldl fun _ i => length_shiftRightTurn i, List.length_replicate]
  positive := x.positive

/-- `operator<` -/
def lt (a b : BaseUint WIDTH) : Bool := scanDown (· < ·) (· > ·) false a.pn b.pn WIDTH

/-- `operator<=` -/
def le (a b : BaseUint WIDTH) : Bool := scanDown (· < ·) (· > ·) true a.pn b.pn WIDTH

/-- `operator>` -/
def gt (a b : BaseUint WIDTH) : Bool := scanDown (· > ·) (· < ·) false a.pn b.pn WIDTH

/-- `operator>=` -/
def ge (a b : BaseUint WIDTH) : Bool := scanDown (· > ·) (· < ·) true a.pn b.pn WIDTH

/-- `operator==` -/
def eq (a b : BaseUint WIDTH) : Bool := equalLoop a.pn b.pn

/-- `operator!=` -/
def ne (a b : BaseUint WIDTH) : Bool := !eq a b

/-! ## Their values -/

/-- The number that some words stand for. -/
def valueOf (pn : List UInt32) : Nat := Nat.ofDigits (2 ^ 32) (pn.map UInt32.toNat)

def value (x : BaseUint WIDTH) : Nat := valueOf x.pn

theorem valueOf_cons (p : UInt32) (pn : List UInt32) : valueOf (p :: pn) = p.toNat + 2 ^ 32 * valueOf pn := by
  rw [valueOf, List.map_cons, Nat.ofDigits_cons]
  rfl

theorem valueOf_lt (pn : List UInt32) : valueOf pn < (2 ^ 32) ^ pn.length := by
  have small : ∀ digit ∈ pn.map UInt32.toNat, digit < 2 ^ 32 := by
    intro digit member
    obtain ⟨p, -, rfl⟩ := List.mem_map.mp member
    exact p.toNat_lt
  have bound := Nat.ofDigits_lt_base_pow_length (by decide : 1 < 2 ^ 32) small
  rwa [List.length_map] at bound

theorem valueOf_append (low high : List UInt32) :
    valueOf (low ++ high) = valueOf low + (2 ^ 32) ^ low.length * valueOf high := by
  rw [valueOf, List.map_append, Nat.ofDigits_append, List.length_map]
  rfl

theorem size_cons (p : UInt32) (pn : List UInt32) : (2 ^ 32) ^ (p :: pn).length = 2 ^ 32 * (2 ^ 32) ^ pn.length :=
  pow_succ' (2 ^ 32) pn.length

theorem lowHalf (n : UInt64) : (n &&& 0xffffffff).toUInt32.toNat = n.toNat % 2 ^ 32 := by
  have mask : (0xffffffff : UInt64).toNat = 2 ^ 32 - 1 := rfl
  rw [UInt64.toNat_toUInt32, UInt64.toNat_and, mask, Nat.and_two_pow_sub_one_eq_mod, Nat.mod_mod]

theorem highHalf (n : UInt64) : (n >>> 32).toNat = n.toNat / 2 ^ 32 := by
  rw [UInt64.toNat_shiftRight, Nat.shiftRight_eq_div_pow]
  rfl

/-- The carry is at most one, so that 64 bits hold the sum of a turn. -/
theorem valueOf_addLoop {carry : UInt64} {pn b : List UInt32} (same : pn.length = b.length) (one : carry.toNat ≤ 1) :
    valueOf (addLoop carry pn b) = (carry.toNat + valueOf pn + valueOf b) % (2 ^ 32) ^ pn.length := by
  induction pn generalizing b carry with
  | nil => simp [addLoop, valueOf, Nat.mod_one]
  | cons p pn ih =>
      cases b with
      | nil => contradiction
      | cons q b =>
          have first := p.toNat_lt
          have second := q.toNat_lt
          have sum : (carry + p.toUInt64 + q.toUInt64).toNat = carry.toNat + p.toNat + q.toNat := by
            simp only [UInt64.toNat_add, UInt32.toNat_toUInt64]
            omega
          have carried : ((carry + p.toUInt64 + q.toUInt64) >>> 32).toNat ≤ 1 := by
            rw [highHalf, sum]
            omega
          have total : carry.toNat + (p.toNat + 2 ^ 32 * valueOf pn) + (q.toNat + 2 ^ 32 * valueOf b) =
              carry.toNat + p.toNat + q.toNat + 2 ^ 32 * (valueOf pn + valueOf b) := by ring
          rw [addLoop, valueOf_cons, lowHalf, ih (Nat.succ.inj same) carried, highHalf, sum, valueOf_cons, valueOf_cons,
            size_cons, Nat.mod_mul, total, Nat.add_mul_mod_self_left,
            Nat.add_mul_div_left _ _ (by decide), Nat.add_assoc (_ / _)]

theorem valueOf_complement (pn : List UInt32) : valueOf (pn.map (~~~ ·)) + valueOf pn + 1 = (2 ^ 32) ^ pn.length := by
  induction pn with
  | nil => rfl
  | cons p pn ih =>
      have below := p.toNat_lt
      have flipped : (~~~p).toNat = 2 ^ 32 - 1 - p.toNat := UInt32.toNat_not p
      rw [List.map_cons, valueOf_cons, valueOf_cons, flipped, size_cons, ← ih]
      omega

theorem valueOf_incrementLoop (pn : List UInt32) : valueOf (incrementLoop pn) = (valueOf pn + 1) % (2 ^ 32) ^ pn.length := by
  induction pn with
  | nil => simp [incrementLoop, valueOf]
  | cons p pn ih =>
      have below := p.toNat_lt
      have next : (p + 1).toNat = (p.toNat + 1) % 2 ^ 32 := UInt32.toNat_add p 1
      rw [incrementLoop, valueOf_cons p pn, size_cons]
      by_cases wraps : p + 1 = 0
      · have zero : (p.toNat + 1) % 2 ^ 32 = 0 := next.symm.trans (congrArg UInt32.toNat wraps)
        have highest : p.toNat + 2 ^ 32 * valueOf pn + 1 = 2 ^ 32 * (valueOf pn + 1) := by omega
        rw [highest, Nat.mul_mod_mul_left, ← ih]
        cases pn with
        | nil => rw [if_neg (fun both => both.2 rfl), valueOf_cons, wraps]; rfl
        | cons q pn => rw [if_pos ⟨wraps, List.cons_ne_nil q pn⟩, valueOf_cons, wraps]; exact Nat.zero_add _
      · have small : p.toNat + 1 < 2 ^ 32 := by
          have unwrapped : (p + 1).toNat ≠ 0 := fun zero => wraps (UInt32.toNat_inj.mp zero)
          omega
        have bound := valueOf_lt ((p + 1) :: pn)
        rw [valueOf_cons, next, Nat.mod_eq_of_lt small, size_cons] at bound
        rw [if_neg (not_and_of_not_left _ wraps), valueOf_cons, next, Nat.mod_eq_of_lt small,
          Nat.mod_eq_of_lt (by omega)]
        omega

theorem valueOf_decrementLoop (pn : List UInt32) :
    valueOf (decrementLoop pn) = (valueOf pn + ((2 ^ 32) ^ pn.length - 1)) % (2 ^ 32) ^ pn.length := by
  induction pn with
  | nil => simp [decrementLoop, valueOf]
  | cons p pn ih =>
      have some : 0 < (2 ^ 32) ^ pn.length := by positivity
      have bound := valueOf_lt (p :: pn)
      rw [valueOf_cons, size_cons] at bound
      rw [decrementLoop, valueOf_cons p pn, size_cons]
      by_cases wraps : p = 0
      · subst wraps
        have borrowed : (0 : UInt32).toNat + 2 ^ 32 * valueOf pn + (2 ^ 32 * (2 ^ 32) ^ pn.length - 1) =
            2 ^ 32 - 1 + 2 ^ 32 * (valueOf pn + ((2 ^ 32) ^ pn.length - 1)) := by
          change 0 + _ + _ = _
          omega
        have quotient : (2 ^ 32 - 1) / 2 ^ 32 = 0 := rfl
        rw [borrowed, Nat.mod_mul, Nat.add_mul_mod_self_left, Nat.add_mul_div_left _ _ (by decide), quotient,
          Nat.zero_add, ← ih]
        cases pn with
        | nil => rfl
        | cons q pn => rw [if_pos ⟨rfl, List.cons_ne_nil q pn⟩, valueOf_cons]; rfl
      · have positive : p.toNat ≠ 0 := fun zero => wraps (UInt32.toNat_inj.mp zero)
        have next : (p - 1).toNat = p.toNat - 1 := by
          have below := p.toNat_lt
          rw [UInt32.toNat_sub]
          change (2 ^ 32 - 1 + p.toNat) % 2 ^ 32 = _
          omega
        have kept : ¬(p - 1 = -1 ∧ pn ≠ []) := by
          rintro ⟨wrapped, -⟩
          have highest : (p - 1).toNat = 2 ^ 32 - 1 := congrArg UInt32.toNat wrapped
          have below := p.toNat_lt
          omega
        have whole : p.toNat + 2 ^ 32 * valueOf pn + (2 ^ 32 * (2 ^ 32) ^ pn.length - 1) =
            p.toNat - 1 + 2 ^ 32 * valueOf pn + 2 ^ 32 * (2 ^ 32) ^ pn.length := by omega
        rw [if_neg kept, valueOf_cons, next, whole, Nat.add_mod_right, Nat.mod_eq_of_lt (by omega)]

/-! ## Shifts -/

theorem testBit_valueOf (pn : List UInt32) (n : Nat) : (valueOf pn).testBit n = (pn.getD (n / 32) 0).toNat.testBit (n % 32) := by
  have small : ∀ digit ∈ pn.map UInt32.toNat, digit < 2 ^ 32 := by
    intro digit member
    obtain ⟨p, -, rfl⟩ := List.mem_map.mp member
    exact p.toNat_lt
  have zero : (0 : Nat) = (0 : UInt32).toNat := rfl
  rw [valueOf, testBit_ofDigits (by decide) small, zero, List.getD_map]

theorem getD_orAt (pn : List UInt32) (i j : Nat) (word : UInt32) :
    (orAt pn i word).getD j 0 = if i = j ∧ j < pn.length then pn.getD j 0 ||| word else pn.getD j 0 := by
  rw [orAt, List.getD_eq_getElem?_getD, List.getD_eq_getElem?_getD, List.getElem?_modify]
  by_cases inside : j < pn.length
  · rw [List.getElem?_eq_getElem inside]
    by_cases same : i = j
    · simp [same, inside]
    · simp [same]
  · rw [List.getElem?_eq_none (Nat.not_lt.mp inside)]
    simp [inside]

section Turns

variable {WIDTH k i j : Nat} {shift : UInt32} {a pn : List UInt32}

theorem getD_shiftLeftTurn (length : pn.length = WIDTH) (inside : j < WIDTH) :
    (shiftLeftTurn WIDTH k shift a pn i).getD j 0 =
      if i + k + 1 = j ∧ shift ≠ 0 then pn.getD j 0 ||| a.getD i 0 >>> (32 - shift)
      else if i + k = j then pn.getD j 0 ||| a.getD i 0 <<< shift else pn.getD j 0 := by
  unfold shiftLeftTurn
  split_ifs <;> simp only [getD_orAt, length_orAt] <;> grind

theorem getD_shiftRightTurn (length : pn.length = WIDTH) (inside : j < WIDTH) :
    (shiftRightTurn k shift a pn i).getD j 0 =
      if i = j + k + 1 ∧ shift ≠ 0 then pn.getD j 0 ||| a.getD i 0 <<< (32 - shift)
      else if i = j + k then pn.getD j 0 ||| a.getD i 0 >>> shift else pn.getD j 0 := by
  unfold shiftRightTurn
  split_ifs <;> simp only [getD_orAt, length_orAt] <;> grind

/-- A word after some turns of `operator<<=`: the high part of one word and the low part of the next. -/
theorem shiftLeftTurns (turns : Nat) (inside : j < WIDTH) :
    ((List.range turns).foldl (shiftLeftTurn WIDTH k shift a) (List.replicate WIDTH 0)).getD j 0 =
      (if k + 1 ≤ j ∧ j - k - 1 < turns ∧ shift ≠ 0 then a.getD (j - k - 1) 0 >>> (32 - shift) else 0) |||
        if k ≤ j ∧ j - k < turns then a.getD (j - k) 0 <<< shift else 0 := by
  induction turns with
  | zero => simp
  | succ turns ih =>
      have length : ((List.range turns).foldl (shiftLeftTurn WIDTH k shift a) (List.replicate WIDTH 0)).length = WIDTH := by
        rw [length_foldl fun _ i => length_shiftLeftTurn i, List.length_replicate]
      rw [List.range_succ, List.foldl_append, List.foldl_cons, List.foldl_nil, getD_shiftLeftTurn length inside, ih]
      split_ifs <;> grind

theorem shiftRightTurns (turns : Nat) (inside : j < WIDTH) :
    ((List.range turns).foldl (shiftRightTurn k shift a) (List.replicate WIDTH 0)).getD j 0 =
      (if j + k < turns then a.getD (j + k) 0 >>> shift else 0) |||
        if j + k + 1 < turns ∧ shift ≠ 0 then a.getD (j + k + 1) 0 <<< (32 - shift) else 0 := by
  induction turns with
  | zero => simp
  | succ turns ih =>
      have length : ((List.range turns).foldl (shiftRightTurn k shift a) (List.replicate WIDTH 0)).length = WIDTH := by
        rw [length_foldl fun _ i => length_shiftRightTurn i, List.length_replicate]
      rw [List.range_succ, List.foldl_append, List.foldl_cons, List.foldl_nil, getD_shiftRightTurn length inside, ih]
      split_ifs <;> grind

end Turns

/-! ## The bits of a word -/

section Words

variable (p : UInt32) {shift : UInt32} {r : Nat}

theorem testBit_high (high : 32 ≤ r) : p.toNat.testBit r = false :=
  Nat.testBit_lt_two_pow (p.toNat_lt.trans_le (Nat.pow_le_pow_right (by decide) high))

theorem testBit_shiftLeft (small : shift.toNat < 32) (inside : r < 32) :
    (p <<< shift).toNat.testBit r = (decide (shift.toNat ≤ r) && p.toNat.testBit (r - shift.toNat)) := by
  rw [UInt32.toNat_shiftLeft, Nat.mod_eq_of_lt small, Nat.testBit_mod_two_pow, Nat.testBit_shiftLeft]
  simp [inside]

theorem testBit_shiftRight (small : shift.toNat < 32) : (p >>> shift).toNat.testBit r = p.toNat.testBit (shift.toNat + r) := by
  rw [UInt32.toNat_shiftRight, Nat.mod_eq_of_lt small, Nat.testBit_shiftRight]

theorem toNat_remaining (some : shift ≠ 0) (small : shift.toNat < 32) :
    (32 - shift).toNat = 32 - shift.toNat ∧ (32 - shift).toNat < 32 := by
  have positive : shift.toNat ≠ 0 := fun zero => some (UInt32.toNat_inj.mp zero)
  rw [UInt32.toNat_sub]
  change (2 ^ 32 - shift.toNat + 32) % 2 ^ 32 = _ ∧ (2 ^ 32 - shift.toNat + 32) % 2 ^ 32 < 32
  omega

end Words

theorem testBit_valueOf_at (pn : List UInt32) (j : Nat) {r : Nat} (inside : r < 32) :
    (valueOf pn).testBit (32 * j + r) = (pn.getD j 0).toNat.testBit r := by
  rw [testBit_valueOf, Nat.mul_add_div (by decide), Nat.div_eq_of_lt inside, Nat.add_zero, Nat.mul_add_mod,
    Nat.mod_eq_of_lt inside]

variable (x : BaseUint WIDTH) (shift : UInt32)

theorem size_eq : (2 ^ 32) ^ WIDTH = 2 ^ (32 * WIDTH) := (pow_mul 2 32 WIDTH).symm

theorem shift_parts : ∃ k s, k = (shift / 32).toNat ∧ s = shift % 32 ∧ s.toNat < 32 ∧ shift.toNat = 32 * k + s.toNat := by
  refine ⟨_, _, rfl, rfl, ?_, ?_⟩
  · rw [UInt32.toNat_mod]
    exact Nat.mod_lt _ (by decide)
  · rw [UInt32.toNat_div, UInt32.toNat_mod]
    exact (Nat.div_add_mod shift.toNat 32).symm

theorem getD_outside {pn : List UInt32} {j : Nat} (outside : pn.length ≤ j) : (pn.getD j 0).toNat = 0 := by
  rw [List.getD_eq_default _ _ outside]
  rfl

theorem testBit_shiftLeftWord {a : List UInt32} {k j r : Nat} {s : UInt32} (small : s.toNat < 32) (inside : r < 32) :
    ((if k + 1 ≤ j ∧ s ≠ 0 then a.getD (j - k - 1) 0 >>> (32 - s) else 0) |||
        if k ≤ j then a.getD (j - k) 0 <<< s else 0).toNat.testBit r =
      (decide (32 * k + s.toNat ≤ 32 * j + r) && (valueOf a).testBit (32 * j + r - (32 * k + s.toNat))) := by
  have lowPart : (if k ≤ j then a.getD (j - k) 0 <<< s else 0).toNat.testBit r =
      (decide (k ≤ j ∧ s.toNat ≤ r) && (a.getD (j - k) 0).toNat.testBit (r - s.toNat)) := by
    split
    · rename_i reached
      rw [testBit_shiftLeft _ small inside]
      simp [reached]
    · rename_i beyond
      simp [beyond]
  have highPart : (if k + 1 ≤ j ∧ s ≠ 0 then a.getD (j - k - 1) 0 >>> (32 - s) else 0).toNat.testBit r =
      (decide (k + 1 ≤ j ∧ r < s.toNat) && (a.getD (j - k - 1) 0).toNat.testBit (32 + r - s.toNat)) := by
    split
    · rename_i reached
      obtain ⟨remaining, fewer⟩ := toNat_remaining reached.2 small
      rw [testBit_shiftRight _ fewer, remaining]
      by_cases spilled : r < s.toNat
      · have place : 32 - s.toNat + r = 32 + r - s.toNat := by omega
        simp [reached.1, spilled, place]
      · rw [testBit_high _ (by omega)]
        simp [spilled]
    · rename_i beyond
      have none : ¬(k + 1 ≤ j ∧ r < s.toNat) := fun both => beyond ⟨both.1, by rintro rfl; exact absurd both.2 (by simp)⟩
      rw [decide_eq_false none, Bool.false_and]
      exact Nat.zero_testBit r
  rw [UInt32.toNat_or, Nat.testBit_or, lowPart, highPart]
  by_cases low : s.toNat ≤ r
  · by_cases reached : k ≤ j
    · have place : 32 * j + r - (32 * k + s.toNat) = 32 * (j - k) + (r - s.toNat) := by omega
      rw [place, testBit_valueOf_at _ _ (by omega), decide_eq_false (by omega), decide_eq_true ⟨reached, low⟩,
        decide_eq_true (by omega), Bool.false_and, Bool.false_or]
    · rw [decide_eq_false (by omega), decide_eq_false (by omega), decide_eq_false (by omega)]
      rfl
  · by_cases reached : k + 1 ≤ j
    · have place : 32 * j + r - (32 * k + s.toNat) = 32 * (j - k - 1) + (32 + r - s.toNat) := by omega
      rw [place, testBit_valueOf_at _ _ (by omega), decide_eq_true (by omega), decide_eq_false (by omega),
        decide_eq_true (by omega), Bool.false_and, Bool.or_false]
    · rw [decide_eq_false (by omega), decide_eq_false (by omega), decide_eq_false (by omega)]
      rfl

theorem value_shiftLeft : (x.shiftLeft shift).value = x.value * 2 ^ shift.toNat % 2 ^ (32 * WIDTH) := by
  obtain ⟨k, s, words, bits, small, split⟩ := shift_parts shift
  have pn : (x.shiftLeft shift).pn = (List.range WIDTH).foldl (shiftLeftTurn WIDTH k s x.pn) (List.replicate WIDTH 0) := by
    rw [words, bits]
    rfl
  apply Nat.eq_of_testBit_eq
  intro n
  obtain ⟨j, r, inside, rfl⟩ : ∃ j r, r < 32 ∧ n = 32 * j + r := ⟨n / 32, n % 32, Nat.mod_lt n (by decide), by omega⟩
  rw [Nat.testBit_mod_two_pow, ← Nat.shiftLeft_eq, Nat.testBit_shiftLeft, value, testBit_valueOf_at _ _ inside, split]
  by_cases within : j < WIDTH
  · have turnHigh : (k + 1 ≤ j ∧ j - k - 1 < WIDTH ∧ s ≠ 0) = (k + 1 ≤ j ∧ s ≠ 0) := by
      have before : j - k - 1 < WIDTH := by omega
      simp [before]
    have turnLow : (k ≤ j ∧ j - k < WIDTH) = (k ≤ j) := by
      have before : j - k < WIDTH := by omega
      simp [before]
    rw [pn, shiftLeftTurns WIDTH within, decide_eq_true (by omega), Bool.true_and]
    simp only [turnHigh, turnLow]
    exact testBit_shiftLeftWord small inside
  · rw [getD_outside (by rw [(x.shiftLeft shift).width]; omega), Nat.zero_testBit, decide_eq_false (by omega), Bool.false_and]

theorem testBit_shiftRightWord {a : List UInt32} {k j r : Nat} {s : UInt32} (small : s.toNat < 32) (inside : r < 32) :
    (a.getD (j + k) 0 >>> s ||| if s ≠ 0 then a.getD (j + k + 1) 0 <<< (32 - s) else 0).toNat.testBit r =
      (valueOf a).testBit (32 * k + s.toNat + (32 * j + r)) := by
  have highPart : (if s ≠ 0 then a.getD (j + k + 1) 0 <<< (32 - s) else 0).toNat.testBit r =
      (decide (32 ≤ s.toNat + r) && (a.getD (j + k + 1) 0).toNat.testBit (s.toNat + r - 32)) := by
    split
    · rename_i some
      obtain ⟨remaining, fewer⟩ := toNat_remaining some small
      have place : r - (32 - s.toNat) = s.toNat + r - 32 := by omega
      rw [testBit_shiftLeft _ fewer inside, remaining, place]
      congr 2
      exact propext (by omega)
    · rename_i none
      obtain rfl := not_not.mp none
      rw [decide_eq_false (by simpa using inside), Bool.false_and]
      exact Nat.zero_testBit r
  rw [UInt32.toNat_or, Nat.testBit_or, highPart, testBit_shiftRight _ small]
  by_cases low : s.toNat + r < 32
  · have place : 32 * k + s.toNat + (32 * j + r) = 32 * (j + k) + (s.toNat + r) := by omega
    rw [place, testBit_valueOf_at _ _ low, decide_eq_false (by omega), Bool.false_and, Bool.or_false]
  · have place : 32 * k + s.toNat + (32 * j + r) = 32 * (j + k + 1) + (s.toNat + r - 32) := by omega
    rw [place, testBit_valueOf_at _ _ (by omega), testBit_high _ (by omega), decide_eq_true (by omega), Bool.true_and,
      Bool.false_or]

theorem value_shiftRight : (x.shiftRight shift).value = x.value / 2 ^ shift.toNat := by
  obtain ⟨k, s, words, bits, small, split⟩ := shift_parts shift
  have pn : (x.shiftRight shift).pn = (List.range WIDTH).foldl (shiftRightTurn k s x.pn) (List.replicate WIDTH 0) := by
    rw [words, bits]
    rfl
  apply Nat.eq_of_testBit_eq
  intro n
  obtain ⟨j, r, inside, rfl⟩ : ∃ j r, r < 32 ∧ n = 32 * j + r := ⟨n / 32, n % 32, Nat.mod_lt n (by decide), by omega⟩
  rw [← Nat.shiftRight_eq_div_pow, Nat.testBit_shiftRight, value, testBit_valueOf_at _ _ inside, split]
  have outside {i : Nat} (beyond : ¬i < WIDTH) : x.pn.getD i 0 = 0 :=
    List.getD_eq_default _ _ (by rw [x.width]; exact Nat.not_lt.mp beyond)
  by_cases within : j < WIDTH
  · have low : (if j + k < WIDTH then x.pn.getD (j + k) 0 >>> s else 0) = x.pn.getD (j + k) 0 >>> s := by
      split
      · rfl
      · rename_i beyond
        rw [outside beyond, UInt32.zero_shiftRight]
    have high : (if j + k + 1 < WIDTH ∧ s ≠ 0 then x.pn.getD (j + k + 1) 0 <<< (32 - s) else 0) =
        if s ≠ 0 then x.pn.getD (j + k + 1) 0 <<< (32 - s) else 0 := by
      by_cases reached : j + k + 1 < WIDTH
      · simp only [reached, true_and]
      · rw [if_neg (fun both => reached both.1), outside reached, UInt32.zero_shiftLeft, ite_self]
    rw [pn, shiftRightTurns WIDTH within, low, high]
    exact testBit_shiftRightWord small inside
  · have bound := valueOf_lt x.pn
    rw [x.width, size_eq] at bound
    have beyond : 2 ^ (32 * WIDTH) ≤ 2 ^ (32 * k + s.toNat + (32 * j + r)) := Nat.pow_le_pow_right (by decide) (by omega)
    rw [getD_outside (by rw [(x.shiftRight shift).width]; omega), Nat.zero_testBit]
    exact (Nat.testBit_lt_two_pow (bound.trans_le beyond)).symm

/-! ## Comparisons -/

section Comparisons

variable {a b : List UInt32} {tie : Bool} {n : Nat}

theorem valueOf_take_succ (inside : n < a.length) :
    valueOf (a.take (n + 1)) = valueOf (a.take n) + (2 ^ 32) ^ n * (a.getD n 0).toNat := by
  have length : (a.take n).length = n := List.length_take_of_le inside.le
  rw [List.take_add_one, List.getElem?_eq_getElem inside, valueOf_append, length, List.getD_eq_getElem a 0 inside]
  rfl

theorem scanDown_iff (first : n ≤ a.length) (second : n ≤ b.length) :
    scanDown (· < ·) (· > ·) tie a b n = true ↔ valueOf (a.take n) < valueOf (b.take n) ∨
      tie = true ∧ valueOf (a.take n) = valueOf (b.take n) := by
  induction n with
  | zero => simp [scanDown]
  | succ n ih =>
      have rest := ih (by omega) (by omega)
      have low : valueOf (a.take n) < (2 ^ 32) ^ n := by
        have bound := valueOf_lt (a.take n)
        rwa [List.length_take_of_le (by omega)] at bound
      have low' : valueOf (b.take n) < (2 ^ 32) ^ n := by
        have bound := valueOf_lt (b.take n)
        rwa [List.length_take_of_le (by omega)] at bound
      rw [scanDown, valueOf_take_succ first, valueOf_take_succ second, lt_of_parts low low', eq_of_parts low low']
      by_cases below : a.getD n 0 < b.getD n 0
      · have order := UInt32.lt_iff_toNat_lt.mp below
        rw [if_pos (decide_eq_true below)]
        exact ⟨fun _ => .inl (.inl order), fun _ => rfl⟩
      · have order := mt UInt32.lt_iff_toNat_lt.mpr below
        rw [if_neg (by simpa using below)]
        by_cases above : a.getD n 0 > b.getD n 0
        · have order := UInt32.lt_iff_toNat_lt.mp above
          rw [if_pos (decide_eq_true above)]
          exact ⟨nofun, fun less => by omega⟩
        · have same : (a.getD n 0).toNat = (b.getD n 0).toNat := by
            have order := mt UInt32.lt_iff_toNat_lt.mpr above
            omega
          rw [if_neg (by simpa using above), rest, same]
          simp only [Nat.lt_irrefl, true_and, false_or]

theorem scanDown_swap : scanDown (· > ·) (· < ·) tie a b n = scanDown (· < ·) (· > ·) tie b a n := by
  induction n with
  | zero => rfl
  | succ n ih => rw [scanDown, scanDown, ih]

theorem equalLoop_iff (same : a.length = b.length) : equalLoop a b = true ↔ a = b := by
  induction a generalizing b with
  | nil =>
      cases b with
      | nil => simp [equalLoop]
      | cons q b => contradiction
  | cons p a ih =>
      cases b with
      | nil => contradiction
      | cons q b =>
          rw [equalLoop]
          by_cases equal : p = q
          · simp [equal, ih (Nat.succ.inj same)]
          · simp [equal]

theorem valueOf_injective (same : a.length = b.length) (equal : valueOf a = valueOf b) : a = b := by
  induction a generalizing b with
  | nil =>
      cases b with
      | nil => rfl
      | cons q b => contradiction
  | cons p a ih =>
      cases b with
      | nil => contradiction
      | cons q b =>
          rw [valueOf_cons, valueOf_cons, eq_of_parts p.toNat_lt q.toNat_lt] at equal
          rw [UInt32.toNat_inj.mp equal.2, ih (Nat.succ.inj same) equal.1]

end Comparisons

variable (y : BaseUint WIDTH)

theorem scan_iff (tie : Bool) : scanDown (· < ·) (· > ·) tie x.pn y.pn WIDTH = true ↔
    x.value < y.value ∨ tie = true ∧ x.value = y.value := by
  rw [scanDown_iff (by rw [x.width]) (by rw [y.width]), List.take_of_length_le (by rw [x.width]),
    List.take_of_length_le (by rw [y.width])]
  rfl

theorem lt_iff : x.lt y = true ↔ x.value < y.value := by
  rw [lt, scan_iff]
  simp

theorem le_iff : x.le y = true ↔ x.value ≤ y.value := by
  rw [le, scan_iff]
  exact (or_congr_right (and_iff_right rfl)).trans Nat.le_iff_lt_or_eq.symm

theorem gt_iff : x.gt y = true ↔ y.value < x.value := by
  rw [gt, scanDown_swap]
  exact lt_iff y x

theorem ge_iff : x.ge y = true ↔ y.value ≤ x.value := by
  rw [ge, scanDown_swap]
  exact le_iff y x

theorem eq_iff : x.eq y = true ↔ x.value = y.value := by
  have same := x.width.trans y.width.symm
  rw [eq, equalLoop_iff same]
  exact ⟨congrArg valueOf, valueOf_injective same⟩

theorem ne_iff : x.ne y = true ↔ x.value ≠ y.value := by
  rw [ne, Bool.not_eq_true', ← Bool.not_eq_true, eq_iff]

/-! ## The arithmetic operators -/

theorem value_lt : x.value < 2 ^ (32 * WIDTH) := by
  have bound := valueOf_lt x.pn
  rwa [x.width, size_eq] at bound

theorem value_add : (x.add y).value = (x.value + y.value) % 2 ^ (32 * WIDTH) := by
  have sum := @valueOf_addLoop 0 _ _ (x.width.trans y.width.symm) (by decide)
  rw [x.width, size_eq, UInt64.toNat_zero, Nat.zero_add] at sum
  exact sum

theorem value_increment : x.increment.value = (x.value + 1) % 2 ^ (32 * WIDTH) := by
  have next := valueOf_incrementLoop x.pn
  rwa [x.width, size_eq] at next

theorem value_decrement : x.decrement.value = (x.value + (2 ^ (32 * WIDTH) - 1)) % 2 ^ (32 * WIDTH) := by
  have before := valueOf_decrementLoop x.pn
  rwa [x.width, size_eq] at before

theorem value_complement : x.complement.value = 2 ^ (32 * WIDTH) - 1 - x.value := by
  have flipped := valueOf_complement x.pn
  rw [x.width, size_eq] at flipped
  change valueOf (x.pn.map (~~~ ·)) = _ - valueOf x.pn
  omega

theorem value_neg : x.neg.value = (2 ^ (32 * WIDTH) - x.value) % 2 ^ (32 * WIDTH) := by
  have bound := x.value_lt
  have next : 2 ^ (32 * WIDTH) - 1 - x.value + 1 = 2 ^ (32 * WIDTH) - x.value := by omega
  rw [neg, value_increment, value_complement, next]

theorem value_sub : (x.sub y).value = (x.value + (2 ^ (32 * WIDTH) - y.value)) % 2 ^ (32 * WIDTH) := by
  rw [sub, value_add, value_neg, Nat.add_mod_mod]

theorem value_injective (equal : x.value = y.value) : x = y :=
  BaseUint.ext (valueOf_injective (x.width.trans y.width.symm) equal)

/-! ## The operands of 64 bits -/

section Operands

variable {n : Nat}

/-- `operator=(uint64 b)`, which writes two words and clears the others. -/
def ofUInt64 (b : UInt64) : BaseUint (n + 2) where
  pn := b.toUInt32 :: (b >>> 32).toUInt32 :: List.replicate n 0
  width := by simp
  positive := Nat.succ_pos _

/-- `operator+=(uint64 b64)` -/
def addUInt64 (x : BaseUint (n + 2)) (b64 : UInt64) : BaseUint (n + 2) := x.add (ofUInt64 b64)

/-- `operator-=(uint64 b64)` -/
def subUInt64 (x : BaseUint (n + 2)) (b64 : UInt64) : BaseUint (n + 2) := x.add (ofUInt64 b64).neg

theorem valueOf_zeros (count : Nat) : valueOf (List.replicate count 0) = 0 := by
  induction count with
  | zero => rfl
  | succ count ih => rw [List.replicate_succ, valueOf_cons, ih]; rfl

theorem value_ofUInt64 (b : UInt64) : (ofUInt64 b : BaseUint (n + 2)).value = b.toNat := by
  have small := b.toNat_lt
  change valueOf (_ :: _ :: _) = _
  rw [valueOf_cons, valueOf_cons, valueOf_zeros, UInt64.toNat_toUInt32, UInt64.toNat_toUInt32, highHalf]
  omega

theorem value_addUInt64 (x : BaseUint (n + 2)) (b64 : UInt64) :
    (x.addUInt64 b64).value = (x.value + b64.toNat) % 2 ^ (32 * (n + 2)) := by
  rw [addUInt64, value_add, value_ofUInt64]

theorem value_subUInt64 (x : BaseUint (n + 2)) (b64 : UInt64) :
    (x.subUInt64 b64).value = (x.value + (2 ^ (32 * (n + 2)) - b64.toNat)) % 2 ^ (32 * (n + 2)) := by
  have difference := value_sub x (ofUInt64 b64)
  rwa [value_ofUInt64] at difference

end Operands

end BaseUint

end BitCrystal
