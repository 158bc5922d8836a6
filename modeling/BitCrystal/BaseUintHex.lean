import BitCrystal.BaseUint

namespace BitCrystal

open Data

/-! # Hexadecimal text and the model's integers -/

namespace BaseUint

variable {WIDTH : Nat} (x y : BaseUint WIDTH) (shift : UInt32)

/-! ## Hexadecimal text -/

def memory (pn : List UInt32) : Bytes := pn.flatMap fun p => littleEndian 4 p.toNat

/-- The words whose bytes stand in memory. -/
def wordsOf : (count : Nat) → Bytes → List UInt32
  | 0, _ => []
  | count + 1, bytes => UInt32.ofNat (ofLittleEndian (bytes.take 4)) :: wordsOf count (bytes.drop 4)

def hexDigit (n : Nat) : UInt8 := UInt8.ofNat (if n < 10 then 0x30 + n else 0x57 + n)

/-- `sprintf(psz + i*2, "%02x", byte)` -/
def hexByte (byte : UInt8) : Bytes := [hexDigit (byte.toNat / 16), hexDigit (byte.toNat % 16)]

def getHex (x : BaseUint WIDTH) : Bytes :=
  (List.range (4 * WIDTH)).flatMap fun i => hexByte ((memory x.pn).getD (4 * WIDTH - i - 1) 0)

/-- The first entries of the table; the others are zero. -/
def phexdigitTable : List UInt8 :=
  [0,0,0,0,0,0,0,0,0,0,0,0,0,0,0,0, 0,0,0,0,0,0,0,0,0,0,0,0,0,0,0,0, 0,0,0,0,0,0,0,0,0,0,0,0,0,0,0,0,
    0,1,2,3,4,5,6,7,8,9,0,0,0,0,0,0, 0,0xa,0xb,0xc,0xd,0xe,0xf,0,0,0,0,0,0,0,0,0, 0,0,0,0,0,0,0,0,0,0,0,0,0,0,0,0,
    0,0xa,0xb,0xc,0xd,0xe,0xf,0,0,0,0,0,0,0,0,0]

def phexdigit (c : UInt8) : UInt8 := phexdigitTable.getD c.toNat 0

def tolower (c : UInt8) : UInt8 := if 0x41 ≤ c ∧ c ≤ 0x5a then c + 0x20 else c

/-- `if (psz[0] == '0' && tolower(psz[1]) == 'x') psz += 2;` -/
def skip0x (psz : Bytes) : Bytes :=
  if psz.headD 0 = 0x30 ∧ tolower (psz.getD 1 0) = 0x78 then psz.drop 2 else psz

/-- The characters that the loop over the digits passes. -/
def isHexDigit (c : UInt8) : Bool := phexdigit c ≠ 0 || c = 0x30

/-- The loop that goes back over the digits and fills the memory from its lowest byte on, with `room`
bytes left of it. -/
def fillLoop : (room : Nat) → (digits : Bytes) → Bytes
  | 0, _ => []
  | room + 1, [] => 0 :: fillLoop room []
  | room + 1, [c] => phexdigit c :: fillLoop room []
  | room + 1, c :: d :: digits => (phexdigit c ||| phexdigit d <<< 4) :: fillLoop room digits

theorem length_wordsOf (count : Nat) (bytes : Bytes) : (wordsOf count bytes).length = count := by
  induction count generalizing bytes with
  | zero => rfl
  | succ count ih => rw [wordsOf, List.length_cons, ih]

/-- `psz` is the text up to its terminator. -/
def setHex (x : BaseUint WIDTH) (psz : Bytes) : BaseUint WIDTH where
  pn :=
    let pbegin := skip0x (psz.dropWhile isspace)
    wordsOf WIDTH (fillLoop (4 * WIDTH) (pbegin.takeWhile isHexDigit).reverse)
  width := length_wordsOf _ _
  positive := x.positive

theorem length_memory (pn : List UInt32) : (memory pn).length = 4 * pn.length := by
  induction pn with
  | nil => rfl
  | cons p pn ih =>
      rw [memory, List.flatMap_cons, List.length_append, littleEndian_length, ← memory, ih, List.length_cons]
      omega

theorem wordsOf_memory (pn : List UInt32) : wordsOf pn.length (memory pn) = pn := by
  induction pn with
  | nil => rfl
  | cons p pn ih =>
      have length := littleEndian_length 4 p.toNat
      have word : UInt32.ofNat (ofLittleEndian (littleEndian 4 p.toNat)) = p := by
        rw [ofLittleEndian_littleEndian]
        exact (congrArg UInt32.ofNat (Nat.mod_eq_of_lt p.toNat_lt)).trans UInt32.ofNat_toNat
      rw [memory, List.flatMap_cons, List.length_cons, wordsOf, List.take_left' length, List.drop_left' length, word,
        ← memory, ih]

theorem getHex_eq : x.getHex = (memory x.pn).reverse.flatMap hexByte := by
  have bytes : (memory x.pn).reverse = (List.range (4 * WIDTH)).map fun i => (memory x.pn).getD (4 * WIDTH - i - 1) 0 := by
    have length := length_memory x.pn
    rw [x.width] at length
    apply List.ext_getElem
    · simp [length]
    · intro i first second
      have inside : 4 * WIDTH - i - 1 < (memory x.pn).length := by
        rw [List.length_reverse, length] at first
        omega
      have place : (memory x.pn).length - 1 - i = 4 * WIDTH - i - 1 := by omega
      rw [List.getElem_reverse, List.getElem_map, List.getElem_range, List.getD_eq_getElem _ _ inside]
      simp only [place]
  rw [bytes, List.flatMap_map, getHex]

theorem fillLoop_bytes (bytes : Bytes) : fillLoop bytes.length (bytes.flatMap fun byte => (hexByte byte).reverse) = bytes := by
  have whole : ∀ byte : UInt8,
      phexdigit (hexDigit (byte.toNat % 16)) ||| phexdigit (hexDigit (byte.toNat / 16)) <<< 4 = byte :=
    forall_byte (by decide +kernel)
  induction bytes with
  | nil => rfl
  | cons byte bytes ih =>
      rw [List.flatMap_cons]
      change (_ ||| _) :: fillLoop bytes.length (bytes.flatMap fun byte => (hexByte byte).reverse) = _
      exact congrArg₂ List.cons (whole byte) ih

theorem hexByte_chars (byte : UInt8) : ∀ c ∈ hexByte byte, isspace c = false ∧ isHexDigit c = true ∧ tolower c ≠ 0x78 := by
  have digit : ∀ n < 16,
      isspace (hexDigit n) = false ∧ isHexDigit (hexDigit n) = true ∧ tolower (hexDigit n) ≠ 0x78 := by
    decide +kernel
  intro c member
  rcases List.mem_pair.mp member with rfl | rfl
  · exact digit _ (Nat.div_lt_of_lt_mul byte.toNat_lt)
  · exact digit _ (Nat.mod_lt _ (by decide))

theorem skip0x_of_forall {psz : Bytes} (each : ∀ c ∈ psz, tolower c ≠ 0x78) : skip0x psz = psz := by
  have second : tolower (psz.getD 1 0) ≠ 0x78 := by
    by_cases inside : 1 < psz.length
    · rw [List.getD_eq_getElem psz 0 inside]
      exact each _ (List.getElem_mem inside)
    · rw [List.getD_eq_default psz 0 (Nat.not_lt.mp inside)]
      decide
  exact if_neg fun both => second both.2

theorem setHex_getHex : y.setHex x.getHex = x := by
  have chars : ∀ c ∈ x.getHex, isspace c = false ∧ isHexDigit c = true ∧ tolower c ≠ 0x78 := by
    intro c member
    obtain ⟨i, -, inByte⟩ := List.mem_flatMap.mp member
    exact hexByte_chars _ c inByte
  have spaces : x.getHex.dropWhile isspace = x.getHex :=
    List.dropWhile_eq_self_iff.mpr fun _ => by simp [chars _ (List.getElem_mem _)]
  have begins : skip0x x.getHex = x.getHex := skip0x_of_forall fun c member => (chars c member).2.2
  have digits : x.getHex.takeWhile isHexDigit = x.getHex :=
    List.takeWhile_eq_self_iff.mpr fun c member => (chars c member).2.1
  have backwards : x.getHex.reverse = (memory x.pn).flatMap fun byte => (hexByte byte).reverse := by
    rw [getHex_eq, List.reverse_flatMap, List.reverse_reverse]
    rfl
  have filled : fillLoop (4 * WIDTH) x.getHex.reverse = memory x.pn := by
    have length := length_memory x.pn
    rw [x.width] at length
    rw [backwards, ← length, fillLoop_bytes]
  apply BaseUint.ext
  change wordsOf WIDTH (fillLoop (4 * WIDTH) ((skip0x (x.getHex.dropWhile isspace)).takeWhile isHexDigit).reverse) = x.pn
  rw [spaces, begins, digits, filled]
  have words := wordsOf_memory x.pn
  rwa [x.width] at words

/-! ## Integers modulo a power of two -/

/-- The integer of the rest of the model. -/
def toBitVec : BitVec (32 * WIDTH) := BitVec.ofNatLT x.value x.value_lt

theorem toNat_toBitVec : x.toBitVec.toNat = x.value := BitVec.toNat_ofNatLT x.value x.value_lt

theorem toBitVec_injective (equal : x.toBitVec = y.toBitVec) : x = y := by
  apply value_injective
  rw [← toNat_toBitVec, equal, toNat_toBitVec]

theorem toBitVec_add : (x.add y).toBitVec = x.toBitVec + y.toBitVec := by
  apply BitVec.eq_of_toNat_eq
  rw [BitVec.toNat_add, toNat_toBitVec, toNat_toBitVec, toNat_toBitVec, value_add]

theorem toBitVec_neg : x.neg.toBitVec = -x.toBitVec := by
  apply BitVec.eq_of_toNat_eq
  rw [BitVec.toNat_neg, toNat_toBitVec, toNat_toBitVec, value_neg]

theorem toBitVec_sub : (x.sub y).toBitVec = x.toBitVec - y.toBitVec := by
  apply BitVec.eq_of_toNat_eq
  rw [BitVec.toNat_sub, toNat_toBitVec, toNat_toBitVec, toNat_toBitVec, value_sub, Nat.add_comm]

theorem toBitVec_shiftLeft : (x.shiftLeft shift).toBitVec = x.toBitVec <<< shift.toNat := by
  apply BitVec.eq_of_toNat_eq
  rw [BitVec.toNat_shiftLeft, toNat_toBitVec, toNat_toBitVec, value_shiftLeft, Nat.shiftLeft_eq]

theorem toBitVec_shiftRight : (x.shiftRight shift).toBitVec = x.toBitVec >>> shift.toNat := by
  apply BitVec.eq_of_toNat_eq
  rw [BitVec.toNat_ushiftRight, toNat_toBitVec, toNat_toBitVec, value_shiftRight, Nat.shiftRight_eq_div_pow]

theorem lt_iff_toBitVec : x.lt y = true ↔ x.toBitVec < y.toBitVec := by
  rw [lt_iff, BitVec.lt_def, toNat_toBitVec, toNat_toBitVec]

/-! ## The operators as a whole -/

theorem cast_sub_mod (number : Nat) {other size : Nat} (bound : other ≤ size) :
    (((number + (size - other)) % size : Nat) : Int) = (number - other) % size := by
  have shifted : (number : Int) + (size - other) = number - other + size := by ring
  rw [Int.natCast_emod, Nat.cast_add, Nat.cast_sub bound, shifted, Int.add_emod_right]

theorem eq_iff_eq : x.eq y = true ↔ x = y :=
  (eq_iff x y).trans ⟨value_injective x y, congrArg value⟩

theorem ne_iff_ne : x.ne y = true ↔ x ≠ y :=
  (ne_iff x y).trans (not_congr ⟨value_injective x y, congrArg value⟩)

theorem shift_out {shift : UInt32} (all : 32 * WIDTH ≤ shift.toNat) :
    (x.shiftLeft shift).value = 0 ∧ (x.shiftRight shift).value = 0 := by
  rw [value_shiftLeft, value_shiftRight]
  exact ⟨Nat.mod_eq_zero_of_dvd (dvd_mul_of_dvd_right (pow_dvd_pow 2 all) _),
    Nat.div_eq_of_lt (x.value_lt.trans_le (Nat.pow_le_pow_right (by decide) all))⟩

/-- The operators are those of the integers modulo 2^BITS, the comparisons those of their order, and
SetHex reads what GetHex writes. -/
theorem operators_mod :
    (((x.add y).value : Int) = (x.value + y.value) % 2 ^ (32 * WIDTH) ∧
      ((x.sub y).value : Int) = (x.value - y.value) % 2 ^ (32 * WIDTH) ∧
      (x.neg.value : Int) = -x.value % 2 ^ (32 * WIDTH) ∧
      (x.increment.value : Int) = (x.value + 1) % 2 ^ (32 * WIDTH) ∧
      (x.decrement.value : Int) = (x.value - 1) % 2 ^ (32 * WIDTH)) ∧
    (((x.shiftLeft shift).value : Int) = x.value * 2 ^ shift.toNat % 2 ^ (32 * WIDTH) ∧
      ((x.shiftRight shift).value : Int) = x.value / 2 ^ shift.toNat % 2 ^ (32 * WIDTH) ∧
      (32 * WIDTH ≤ shift.toNat → (x.shiftLeft shift).value = 0 ∧ (x.shiftRight shift).value = 0)) ∧
    ((x.lt y = true ↔ x.value < y.value) ∧ (x.le y = true ↔ x.value ≤ y.value) ∧ (x.gt y = true ↔ x.value > y.value) ∧
      (x.ge y = true ↔ x.value ≥ y.value) ∧ (x.eq y = true ↔ x = y) ∧ (x.ne y = true ↔ x ≠ y)) ∧
    y.setHex x.getHex = x := by
  have cast : ((2 ^ (32 * WIDTH) : Nat) : Int) = 2 ^ (32 * WIDTH) := by
    rw [Nat.cast_pow]
    rfl
  have bound := x.value_lt
  have bound' := y.value_lt
  refine ⟨⟨?_, ?_, ?_, ?_, ?_⟩, ⟨?_, ?_, shift_out x⟩,
    ⟨lt_iff x y, le_iff x y, gt_iff x y, ge_iff x y, eq_iff_eq x y, ne_iff_ne x y⟩, setHex_getHex x y⟩
  · rw [value_add, Int.natCast_emod, cast, Nat.cast_add]
  · rw [value_sub, cast_sub_mod _ bound'.le, cast]
  · have difference := cast_sub_mod 0 bound.le
    rw [Nat.zero_add, Nat.cast_zero, zero_sub, cast] at difference
    rw [value_neg, difference]
  · rw [value_increment, Int.natCast_emod, cast, Nat.cast_add, Nat.cast_one]
  · rw [value_decrement, cast_sub_mod _ (by omega), cast, Nat.cast_one]
  · rw [value_shiftLeft, Int.natCast_emod, cast, Nat.cast_mul, Nat.cast_pow]
    rfl
  · have small := (Nat.div_le_self x.value (2 ^ shift.toNat)).trans_lt bound
    rw [value_shiftRight, ← Nat.mod_eq_of_lt small, Int.natCast_emod, cast, Int.natCast_ediv,
      Nat.cast_pow]
    rfl

end BaseUint

end BitCrystal
