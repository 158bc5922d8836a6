import BitCrystal.Data.Reader

namespace BitCrystal

open Data

/-! # The integer codecs of serialize.h -/

def MAX_SIZE : Nat := 0x02000000

/-! ## Compact size -/

def getSizeOfCompactSize (nSize : Nat) : Nat :=
  if nSize < 253 then 1
  else if nSize ≤ 0xffff then 3
  else if nSize ≤ 0xffffffff then 5
  else 9

def writeCompactSize (nSize : Nat) : Bytes :=
  if nSize < 253 then [UInt8.ofNat nSize]
  else if nSize ≤ 0xffff then 253 :: littleEndian 2 nSize
  else if nSize ≤ 0xffffffff then 254 :: littleEndian 4 nSize
  else 255 :: littleEndian 8 nSize

def readCompactSize : Reader Nat := do
  let chSize ← Reader.byte
  let nSizeRet ←
    if chSize < 253 then pure chSize.toNat
    else if chSize = 253 then Reader.littleEndian 2
    else if chSize = 254 then Reader.littleEndian 4
    else Reader.littleEndian 8
  if nSizeRet > MAX_SIZE then Reader.fail else pure nSizeRet

theorem getSizeOfCompactSize_pos (nSize : Nat) : 0 < getSizeOfCompactSize nSize := by
  unfold getSizeOfCompactSize
  split_ifs <;> decide

theorem writeCompactSize_length (nSize : Nat) :
    (writeCompactSize nSize).length = getSizeOfCompactSize nSize := by
  unfold writeCompactSize getSizeOfCompactSize
  split_ifs <;> simp

/-- What ReadCompactSize reads before it compares the size with the limit. -/
def readSize : Reader Nat := do
  let chSize ← Reader.byte
  if chSize < 253 then pure chSize.toNat
  else if chSize = 253 then Reader.littleEndian 2
  else if chSize = 254 then Reader.littleEndian 4
  else Reader.littleEndian 8

theorem readSize_reads {nSize : Nat} (bounded : nSize < 2 ^ 64) :
    Reads readSize (writeCompactSize nSize) nSize := by
  unfold writeCompactSize readSize
  split_ifs with one two four
  · have value : (UInt8.ofNat nSize).toNat = nSize := by
      rw [UInt8.toNat_ofNat']
      exact Nat.mod_eq_of_lt (by omega)
    have below : UInt8.ofNat nSize < 253 := by
      rw [UInt8.lt_iff_toNat_lt, value]
      exact one
    refine (Reads.byte _).bind (m := []) ?_
    simp only [below, if_true, value]
    exact Reads.pure nSize
  · exact (Reads.byte 253).bind (Reads.littleEndian 2 nSize (by omega))
  · exact (Reads.byte 254).bind (Reads.littleEndian 4 nSize (by omega))
  · exact (Reads.byte 255).bind (Reads.littleEndian 8 nSize (by omega))

theorem readCompactSize_eq : readCompactSize =
    readSize >>= fun nSizeRet => if nSizeRet > MAX_SIZE then Reader.fail else pure nSizeRet := by
  simp only [readCompactSize, readSize, bind_assoc]
  refine congrArg (Reader.byte >>= ·) (funext fun chSize => ?_)
  split_ifs <;> simp_all

/-- Sizes up to `MAX_SIZE` survive the codec; larger ones are refused on reading. -/
theorem readCompactSize_reads {nSize : Nat} (bounded : nSize ≤ MAX_SIZE) :
    Reads readCompactSize (writeCompactSize nSize) nSize := by
  have notLarge : ¬ nSize > MAX_SIZE := Nat.not_lt.mpr bounded
  have size := readSize_reads (Nat.lt_of_le_of_lt bounded (by decide : MAX_SIZE < 2 ^ 64))
  rw [readCompactSize_eq, ← List.append_nil (writeCompactSize nSize)]
  refine size.bind ?_
  rw [if_neg notLarge]
  exact Reads.pure nSize

/-! ## Variable-length integers -/

/-- The bytes `tmp[0], tmp[1], ...` that WriteVarInt fills in, at most `room` of
them; all but the first carry the continuation bit. `n & 0x7F` and `n >> 7` act
on the two's complement of a negative number, for which the loop stops at once. -/
def varIntGroups (continuation : Nat) : Nat → Int → Bytes
  | 0, _ => []
  | room + 1, n =>
      let group := UInt8.ofNat ((n % 128).toNat + continuation)
      if n ≤ 0x7F then [group] else group :: varIntGroups 0x80 room (n / 128 - 1)

/-- WriteVarInt for an integer type of `bits` bits. -/
def writeVarInt (bits : Nat) (n : Int) : Bytes :=
  (varIntGroups 0 ((bits + 6) / 7) n).reverse

/-- The loop of GetSizeOfVarInt, which takes no more turns than WriteVarInt. -/
def countGroups : Nat → Int → Nat
  | 0, _ => 0
  | room + 1, n => if n ≤ 0x7F then 1 else countGroups room (n / 128 - 1) + 1

def getSizeOfVarInt (bits : Nat) (n : Int) : Nat :=
  countGroups ((bits + 6) / 7) n

/-- The loop of ReadVarInt, with the value read so far. -/
def readVarIntLoop (bits : Nat) (n : Nat) : Bytes → Option (Nat × Bytes)
  | [] => none
  | chData :: rest =>
      let shifted := (n * 128 + chData.toNat % 128) % 2 ^ bits
      if 128 ≤ chData.toNat then readVarIntLoop bits ((shifted + 1) % 2 ^ bits) rest
      else some (shifted, rest)

def readVarInt (bits : Nat) : Reader Nat := readVarIntLoop bits 0

private theorem varIntGroups_small {continuation room : Nat} {n : Int} (small : n ≤ 0x7F) :
    varIntGroups continuation (room + 1) n = [UInt8.ofNat ((n % 128).toNat + continuation)] := by
  simp [varIntGroups, small]

private theorem varIntGroups_large {continuation room n : Nat} (large : 0x7F < n) :
    varIntGroups continuation (room + 1) n =
      UInt8.ofNat (n % 128 + continuation) :: varIntGroups 0x80 room (n / 128 - 1 : Nat) := by
  have notSmall : ¬ (n : Int) ≤ 0x7F := by omega
  have group : ((n : Int) % 128).toNat = n % 128 := by omega
  have next : (n : Int) / 128 - 1 = ((n / 128 - 1 : Nat) : Int) := by omega
  simp only [varIntGroups, if_neg notSmall, group, next]

private theorem readVarIntLoop_group {bits n group : Nat} (tail : Bytes)
    (fits : n * 128 + group + 1 < 2 ^ bits) (small : group < 128) :
    readVarIntLoop bits n (UInt8.ofNat (group + 0x80) :: tail) =
      readVarIntLoop bits (n * 128 + group + 1) tail := by
  have value : (UInt8.ofNat (group + 0x80)).toNat = group + 128 := by
    rw [UInt8.toNat_ofNat']
    exact Nat.mod_eq_of_lt (by omega)
  have shifted : (n * 128 + (group + 128) % 128) % 2 ^ bits = n * 128 + group := by
    rw [Nat.mod_eq_of_lt (by omega)]
    omega
  have continues : 128 ≤ group + 128 := by omega
  simp only [readVarIntLoop, value, shifted, if_pos continues, Nat.mod_eq_of_lt fits]

/-- Reading through the continuation groups of `n` leaves `n + 1` in the loop:
one is subtracted from every digit but the last when it is written. -/
private theorem readVarIntLoop_continuation {bits : Nat} (room : Nat) {n : Nat} (tail : Bytes)
    (fits : n + 1 < 2 ^ bits) (enough : n < 128 ^ (room + 1)) :
    readVarIntLoop bits 0 ((varIntGroups 0x80 (room + 1) n).reverse ++ tail) =
      readVarIntLoop bits (n + 1) tail := by
  induction room generalizing n tail with
  | zero =>
      rw [varIntGroups_small (by omega)]
      have group : ((n : Int) % 128).toNat = n := by omega
      simpa [group] using readVarIntLoop_group (n := 0) tail (by omega) (show n < 128 by omega)
  | succ room ih =>
      by_cases large : 0x7F < n
      · have fewer : n / 128 - 1 < 128 ^ (room + 1) := by
          have quotient : n / 128 < 128 ^ (room + 1) :=
            Nat.div_lt_of_lt_mul (by rw [Nat.mul_comm, ← Nat.pow_succ]; exact enough)
          omega
        rw [varIntGroups_large large, List.reverse_cons, List.append_assoc,
          ih _ (by omega) fewer]
        have high : n / 128 - 1 + 1 = n / 128 := by omega
        have digits : n / 128 * 128 + n % 128 = n := by omega
        rw [high, List.singleton_append,
          readVarIntLoop_group tail (by omega) (Nat.mod_lt n (by decide)), digits]
      · rw [varIntGroups_small (by omega)]
        have group : ((n : Int) % 128).toNat = n := by omega
        simpa [group] using readVarIntLoop_group (n := 0) tail (by omega) (show n < 128 by omega)

private theorem readVarIntLoop_last {bits n group : Nat} (tail : Bytes)
    (fits : n * 128 + group < 2 ^ bits) (small : group < 128) :
    readVarIntLoop bits n (UInt8.ofNat (group + 0) :: tail) = some (n * 128 + group, tail) := by
  have value : (UInt8.ofNat (group + 0)).toNat = group := by
    rw [UInt8.toNat_ofNat']
    exact Nat.mod_eq_of_lt (by omega)
  have stops : ¬ 128 ≤ group := by omega
  simp only [readVarIntLoop, value, if_neg stops, Nat.mod_eq_of_lt small, Nat.mod_eq_of_lt fits]

theorem readVarInt_reads (bits : Nat) {n : Nat} (positive : 0 < bits) (fits : n < 2 ^ bits) :
    Reads (readVarInt bits) (writeVarInt bits n) n := by
  intro tail
  obtain ⟨room, roomEq⟩ : ∃ room, (bits + 6) / 7 = room + 1 := ⟨(bits + 6) / 7 - 1, by omega⟩
  have capacity : 2 ^ bits ≤ 128 ^ (room + 1) := by
    have power : (128 : Nat) ^ (room + 1) = 2 ^ (7 * (room + 1)) := by rw [Nat.pow_mul]
    rw [power]
    exact Nat.pow_le_pow_right (by decide) (by omega)
  unfold readVarInt writeVarInt
  rw [roomEq]
  by_cases large : 0x7F < n
  · cases room with
    | zero => omega
    | succ room =>
        have fewer : n / 128 - 1 < 128 ^ (room + 1) := by
          have quotient : n / 128 < 128 ^ (room + 1) :=
            Nat.div_lt_of_lt_mul (by rw [Nat.mul_comm, ← Nat.pow_succ]; omega)
          omega
        rw [varIntGroups_large large, List.reverse_cons, List.append_assoc,
          readVarIntLoop_continuation room _ (by omega) fewer]
        have high : n / 128 - 1 + 1 = n / 128 := by omega
        have digits : n / 128 * 128 + n % 128 = n := by omega
        rw [high, List.singleton_append,
          readVarIntLoop_last tail (by omega) (Nat.mod_lt n (by decide)), digits]
  · rw [varIntGroups_small (by omega)]
    have group : ((n : Int) % 128).toNat = n := by omega
    simpa [group] using readVarIntLoop_last (n := 0) tail (by omega) (show n < 128 by omega)

/-- A negative number is cut to its seven low-order bits when it is written. -/
theorem writeVarInt_negative {bits : Nat} {n : Int} (positive : 0 < bits) (negative : n < 0) :
    writeVarInt bits n = writeVarInt bits (n % 128) := by
  obtain ⟨room, roomEq⟩ : ∃ room, (bits + 6) / 7 = room + 1 := ⟨(bits + 6) / 7 - 1, by omega⟩
  unfold writeVarInt
  rw [roomEq, varIntGroups_small (by omega), varIntGroups_small (by omega)]
  simp

theorem writeVarInt_length (bits : Nat) (n : Int) : (writeVarInt bits n).length = getSizeOfVarInt bits n := by
  have groups : ∀ room continuation n,
      (varIntGroups continuation room n).length = countGroups room n := by
    intro room
    induction room with
    | zero =>
        intro continuation n
        rfl
    | succ room ih =>
        intro continuation n
        simp only [varIntGroups, countGroups]
        split
        · rfl
        · rw [List.length_cons, ih]
  rw [writeVarInt, List.length_reverse, getSizeOfVarInt, groups]

end BitCrystal
