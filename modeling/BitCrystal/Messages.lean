import BitCrystal.Data.Decoding
import BitCrystal.Data.RingBuffer
import BitCrystal.Primitives
import BitCrystal.Serialize

namespace BitCrystal

open Data

/-! # Messages of the network protocol -/

def MESSAGE_START_SIZE : Nat := 4
def COMMAND_SIZE : Nat := 12
def MESSAGE_SIZE_OFFSET : Nat := MESSAGE_START_SIZE + COMMAND_SIZE
def CHECKSUM_OFFSET : Nat := MESSAGE_SIZE_OFFSET + 4
def HEADER_SIZE : Nat := CHECKSUM_OFFSET + 4

structure CMessageHeader where
  pchMessageStart : Vector UInt8 4
  pchCommand : Vector UInt8 12
  nMessageSize : UInt32
  nChecksum : UInt32
deriving DecidableEq

/-- `FLATDATA` of an array of bytes -/
def readFlat (count : Nat) : Reader (Vector UInt8 count) := do
  let bytes ← Reader.take count
  return Vector.ofFn fun i => bytes.getD i 0

theorem readFlat_reads {count : Nat} (flat : Vector UInt8 count) : Reads (readFlat count) flat.toList flat := by
  have reads := (Reads.take_of_length flat.length_toList).map fun bytes : Bytes =>
    (Vector.ofFn fun i : Fin count => bytes.getD i 0)
  have same : (Vector.ofFn fun i : Fin count => flat.toList.getD i 0) = flat := by
    ext i inside
    simp [List.getD_eq_getElem?_getD]
  rw [same] at reads
  exact reads

namespace CMessageHeader

-- the message start is that of the network that the node is on
variable (pchMessageStart : Vector UInt8 4)

/-- `strncpy(pchCommand, pszCommand, COMMAND_SIZE)` -/
def copyCommand (pszCommand : Bytes) : Vector UInt8 12 :=
  Vector.ofFn fun i => (pszCommand.takeWhile (· ≠ 0)).getD i 0

/-- `CMessageHeader()` -/
def empty : CMessageHeader := ⟨pchMessageStart, #v[0, 1, 0, 0, 0, 0, 0, 0, 0, 0, 0, 0], 0xffffffff, 0⟩

/-- `CMessageHeader(pszCommand, nMessageSizeIn)` -/
def make (pszCommand : Bytes) (nMessageSizeIn : UInt32) : CMessageHeader :=
  ⟨pchMessageStart, copyCommand pszCommand, nMessageSizeIn, 0⟩

def serialize (hdr : CMessageHeader) : Bytes :=
  hdr.pchMessageStart.toList ++ hdr.pchCommand.toList ++ littleEndian 4 hdr.nMessageSize.toNat ++
    littleEndian 4 hdr.nChecksum.toNat

def unserialize : Reader CMessageHeader := do
  let pchMessageStart ← readFlat 4
  let pchCommand ← readFlat 12
  let nMessageSize ← Reader.littleEndian 4
  let nChecksum ← Reader.littleEndian 4
  return ⟨pchMessageStart, pchCommand, UInt32.ofNat nMessageSize, UInt32.ofNat nChecksum⟩

@[simp] theorem length_serialize (hdr : CMessageHeader) : hdr.serialize.length = HEADER_SIZE := by
  simp [serialize, HEADER_SIZE, CHECKSUM_OFFSET, MESSAGE_SIZE_OFFSET, MESSAGE_START_SIZE, COMMAND_SIZE]

theorem reads (hdr : CMessageHeader) : Reads unserialize hdr.serialize hdr := by
  have word (n : UInt32) : Reads (Reader.littleEndian 4) (littleEndian 4 n.toNat) n.toNat :=
    Reads.littleEndian 4 n.toNat (by simpa using n.toNat_lt)
  simp only [serialize, List.append_assoc]
  refine (readFlat_reads hdr.pchMessageStart).bind ?_
  refine (readFlat_reads hdr.pchCommand).bind ?_
  refine (word hdr.nMessageSize).bind ?_
  have whole := (word hdr.nChecksum).map fun nChecksum =>
    (⟨hdr.pchMessageStart, hdr.pchCommand, UInt32.ofNat hdr.nMessageSize.toNat, UInt32.ofNat nChecksum⟩ : CMessageHeader)
  simpa using whole

theorem unserialize_of_length {bytes : Bytes} (length : bytes.length = HEADER_SIZE) :
    ∃ hdr, unserialize bytes = some (hdr, []) := by
  have size : bytes.length = 24 := length
  have flat (count : Nat) {piece : Bytes} (exact : piece.length = count) :=
    (Reads.take_of_length exact).map fun bytes : Bytes => (Vector.ofFn fun i : Fin count => bytes.getD i 0)
  have number {piece : Bytes} (exact : piece.length = 4) := (Reads.take_of_length exact).map ofLittleEndian
  have parts : bytes = bytes.take 4 ++ ((bytes.drop 4).take 12 ++ ((bytes.drop 16).take 4 ++ bytes.drop 20)) := by
    rw [← List.drop_drop (i := 4) (j := 16), List.take_append_drop, ← List.drop_drop (i := 12) (j := 4),
      List.take_append_drop, List.take_append_drop]
  have reads : Reads unserialize
      (bytes.take 4 ++ ((bytes.drop 4).take 12 ++ ((bytes.drop 16).take 4 ++ bytes.drop 20))) _ :=
    (flat 4 (by simp only [List.length_take]; omega)).bind
      ((flat 12 (by simp only [List.length_take, List.length_drop]; omega)).bind
        ((number (by simp only [List.length_take, List.length_drop]; omega)).bind
          ((number (by simp only [List.length_drop]; omega)).map _)))
  rw [← parts] at reads
  exact ⟨_, reads.whole⟩

end CMessageHeader

/-! ## Finished messages -/

section

variable [Hashing]

/-- The first four bytes of the hash in memory order, as a number. -/
def messageChecksum (payload : Bytes) : UInt32 := UInt32.ofNat (Hashing.Hash payload).toNat

/-- What EndMessage makes of a nonempty `ssSend`: the size and the checksum are set. -/
def finishMessage (ssSend : Bytes) : Bytes :=
  let nSize := ssSend.length - HEADER_SIZE
  let ssSend := writeAt ssSend MESSAGE_SIZE_OFFSET (littleEndian 4 nSize)
  writeAt ssSend CHECKSUM_OFFSET (littleEndian 4 (messageChecksum (ssSend.drop HEADER_SIZE)).toNat)

def finishedHeader (pchMessageStart : Vector UInt8 4) (pszCommand payload : Bytes) : CMessageHeader :=
  { CMessageHeader.make pchMessageStart pszCommand (UInt32.ofNat payload.length) with
    nChecksum := messageChecksum payload }

theorem finishedHeader_size (pchMessageStart : Vector UInt8 4) (pszCommand : Bytes) {payload : Bytes}
    (allowed : payload.length ≤ MAX_SIZE) :
    (finishedHeader pchMessageStart pszCommand payload).nMessageSize.toNat = payload.length := by
  change (UInt32.ofNat payload.length).toNat = payload.length
  rw [UInt32.toNat_ofNat', Nat.mod_eq_of_lt (lt_of_le_of_lt allowed (by decide))]

theorem finishMessage_eq (pchMessageStart : Vector UInt8 4) (pszCommand payload : Bytes) :
    finishMessage ((CMessageHeader.make pchMessageStart pszCommand 0).serialize ++ payload) =
      (finishedHeader pchMessageStart pszCommand payload).serialize ++ payload := by
  generalize command : CMessageHeader.copyCommand pszCommand = pchCommand
  have front : (pchMessageStart.toList ++ pchCommand.toList).length = MESSAGE_SIZE_OFFSET := by simp [MESSAGE_SIZE_OFFSET,
    MESSAGE_START_SIZE, COMMAND_SIZE]
  have sized : writeAt ((CMessageHeader.make pchMessageStart pszCommand 0).serialize ++ payload) MESSAGE_SIZE_OFFSET
      (littleEndian 4 payload.length) =
        (pchMessageStart.toList ++ pchCommand.toList ++ littleEndian 4 payload.length) ++
          (littleEndian 4 0 ++ payload) := by
    have part : writeAt ((pchMessageStart.toList ++ pchCommand.toList) ++ (littleEndian 4 0 ++ (littleEndian 4 0 ++ payload)))
        (pchMessageStart.toList ++ pchCommand.toList).length (littleEndian 4 payload.length) =
          (pchMessageStart.toList ++ pchCommand.toList) ++
            (littleEndian 4 payload.length ++ (littleEndian 4 0 ++ payload)) := writeAt_part (by simp)
    rw [← front]
    simpa only [CMessageHeader.make, CMessageHeader.serialize, command, UInt32.toNat_zero, List.append_assoc] using part
  have nSize : ((CMessageHeader.make pchMessageStart pszCommand 0).serialize ++ payload).length - HEADER_SIZE =
      payload.length := by
    rw [List.length_append, CMessageHeader.length_serialize, Nat.add_sub_cancel_left]
  have behind : (pchMessageStart.toList ++ pchCommand.toList ++ littleEndian 4 payload.length).length =
      CHECKSUM_OFFSET := by
    rw [List.length_append, front, littleEndian_length]
    rfl
  have contents : ((pchMessageStart.toList ++ pchCommand.toList ++ littleEndian 4 payload.length) ++
      (littleEndian 4 0 ++ payload)).drop HEADER_SIZE = payload := by
    rw [← List.append_assoc, List.drop_left' (by rw [List.length_append, behind, littleEndian_length]; rfl)]
  simp only [finishMessage, nSize, sized, contents]
  rw [← behind, writeAt_part (by simp)]
  have cut : littleEndian 4 (UInt32.ofNat payload.length).toNat = littleEndian 4 payload.length := by
    rw [UInt32.toNat_ofNat']
    exact littleEndian_mod 4 payload.length
  simp only [finishedHeader, CMessageHeader.make, CMessageHeader.serialize, command, cut, List.append_assoc]

end

end BitCrystal
