import BitCrystal.Data.ReadProgram
import BitCrystal.BlockSerialize

namespace BitCrystal

open Data

/-! # Blocks from a stream

The templates Unserialize(Stream&, ...) as the calls of `read` that they make. -/

/-- What ReadCompactSize reads before it compares the size with the limit. -/
def streamSize : ReadProgram Nat := do
  let chSize ← ReadProgram.byte
  if chSize < 253 then pure chSize.toNat
  else if chSize = 253 then ReadProgram.littleEndian 2
  else if chSize = 254 then ReadProgram.littleEndian 4
  else ReadProgram.littleEndian 8

def streamCompactSize : ReadProgram Nat := do
  let nSizeRet ← streamSize
  if nSizeRet > MAX_SIZE then .fail "ReadCompactSize() : size too large" else pure nSizeRet

/-- A `vector<unsigned char>` or a script. -/
def streamBytes : ReadProgram Bytes := do
  let nSize ← streamCompactSize
  ReadProgram.takePieces 5000000 nSize nSize

def streamString : ReadProgram Bytes := do
  let nSize ← streamCompactSize
  if nSize ≠ 0 then ReadProgram.take nSize else pure []

def streamVector {α : Type} (program : ReadProgram α) : ReadProgram (List α) := do
  let nSize ← streamCompactSize
  program.repeated nSize

def COutPoint.unserializeStream : ReadProgram COutPoint := do
  let hash ← ReadProgram.littleEndian 32
  let n ← ReadProgram.littleEndian 4
  return ⟨BitVec.ofNat 256 hash, UInt32.ofNat n⟩

def CTxIn.unserializeStream : ReadProgram CTxIn := do
  let prevout ← COutPoint.unserializeStream
  let scriptSig ← streamBytes
  let nSequence ← ReadProgram.littleEndian 4
  return ⟨prevout, scriptSig, UInt32.ofNat nSequence⟩

def CTxOut.unserializeStream : ReadProgram CTxOut := do
  let nValue ← ReadProgram.littleEndian 8
  let scriptPubKey ← streamBytes
  return ⟨(UInt64.ofNat nValue).toInt64, scriptPubKey⟩

def CTransaction.streamComment (nVersion : Int32) : ReadProgram Bytes :=
  if TXCOMMENT_VERSION ≤ nVersion then streamString else pure []

def CTransaction.unserializeStream : ReadProgram CTransaction := do
  let nVersion ← ReadProgram.littleEndian 4
  let vin ← streamVector CTxIn.unserializeStream
  let vout ← streamVector CTxOut.unserializeStream
  let nLockTime ← ReadProgram.littleEndian 4
  let strTxComment ← streamComment (UInt32.ofNat nVersion).toInt32
  return ⟨(UInt32.ofNat nVersion).toInt32, vin, vout, UInt32.ofNat nLockTime, strTxComment⟩

def CBlockHeader.unserializeStream : ReadProgram CBlockHeader := do
  let nVersion ← ReadProgram.littleEndian 4
  let hashPrevBlock ← ReadProgram.littleEndian 32
  let hashMerkleRoot ← ReadProgram.littleEndian 32
  let nTime ← ReadProgram.littleEndian 4
  let nBits ← ReadProgram.littleEndian 4
  let nNonce ← ReadProgram.littleEndian 4
  return ⟨(UInt32.ofNat nVersion).toInt32, BitVec.ofNat 256 hashPrevBlock, BitVec.ofNat 256 hashMerkleRoot,
    UInt32.ofNat nTime, UInt32.ofNat nBits, UInt32.ofNat nNonce⟩

def CBlock.unserializeStream : ReadProgram CBlock := do
  let header ← CBlockHeader.unserializeStream
  let vtx ← streamVector CTransaction.unserializeStream
  return { header with vtx }

/-! ## On a list of bytes -/

theorem toReader_streamSize : streamSize.toReader = readSize := by
  rw [streamSize, ReadProgram.toReader_bind, ReadProgram.toReader_byte, readSize]
  refine congrArg (Reader.byte >>= ·) (funext fun chSize => ?_)
  simp only [apply_ite ReadProgram.toReader, ReadProgram.toReader_pure, ReadProgram.toReader_littleEndian]

@[simp] theorem toReader_streamCompactSize : streamCompactSize.toReader = readCompactSize := by
  rw [readCompactSize_eq, streamCompactSize, ReadProgram.toReader_bind, toReader_streamSize]
  refine congrArg (readSize >>= ·) (funext fun nSizeRet => ?_)
  rw [apply_ite ReadProgram.toReader]
  rfl

@[simp] theorem toReader_streamBytes : streamBytes.toReader = readBytes := by
  rw [streamBytes, ReadProgram.toReader_bind, toReader_streamCompactSize, readBytes]
  refine congrArg (readCompactSize >>= ·) (funext fun nSize => ?_)
  exact ReadProgram.toReader_takePieces (by decide) le_rfl

@[simp] theorem toReader_streamString : streamString.toReader = readBytes := by
  rw [streamString, ReadProgram.toReader_bind, toReader_streamCompactSize, readBytes]
  refine congrArg (readCompactSize >>= ·) (funext fun nSize => ?_)
  split
  case isTrue => exact ReadProgram.toReader_take nSize
  case isFalse none =>
    obtain rfl : nSize = 0 := by omega
    rfl

@[simp] theorem toReader_streamVector {α : Type} (program : ReadProgram α) :
    (streamVector program).toReader = readVector program.toReader := by
  rw [streamVector, ReadProgram.toReader_bind, toReader_streamCompactSize, readVector]
  exact congrArg (readCompactSize >>= ·) (funext fun nSize => ReadProgram.toReader_repeated program nSize)

@[simp] theorem COutPoint.toReader_unserializeStream : unserializeStream.toReader = unserialize := by
  simp only [unserializeStream, unserialize, ReadProgram.toReader_bind, ReadProgram.toReader_littleEndian,
    ReadProgram.toReader_pure]

@[simp] theorem CTxIn.toReader_unserializeStream : unserializeStream.toReader = unserialize := by
  simp only [unserializeStream, unserialize, ReadProgram.toReader_bind, ReadProgram.toReader_littleEndian,
    ReadProgram.toReader_pure, COutPoint.toReader_unserializeStream, toReader_streamBytes]

@[simp] theorem CTxOut.toReader_unserializeStream : unserializeStream.toReader = unserialize := by
  simp only [unserializeStream, unserialize, ReadProgram.toReader_bind, ReadProgram.toReader_littleEndian,
    ReadProgram.toReader_pure, toReader_streamBytes]

@[simp] theorem CTransaction.toReader_streamComment (nVersion : Int32) :
    (streamComment nVersion).toReader = unserializeComment nVersion := by
  rw [streamComment, apply_ite ReadProgram.toReader, toReader_streamString, ReadProgram.toReader_pure,
    unserializeComment]

@[simp] theorem CTransaction.toReader_unserializeStream : unserializeStream.toReader = unserialize := by
  simp only [unserializeStream, unserialize, ReadProgram.toReader_bind, ReadProgram.toReader_littleEndian,
    ReadProgram.toReader_pure, toReader_streamVector, CTxIn.toReader_unserializeStream,
    CTxOut.toReader_unserializeStream, toReader_streamComment]

@[simp] theorem CBlockHeader.toReader_unserializeStream : unserializeStream.toReader = unserialize := by
  simp only [unserializeStream, unserialize, ReadProgram.toReader_bind, ReadProgram.toReader_littleEndian,
    ReadProgram.toReader_pure]

theorem CBlock.toReader_unserializeStream : unserializeStream.toReader = unserialize := by
  simp only [unserializeStream, unserialize, ReadProgram.toReader_bind, ReadProgram.toReader_pure,
    toReader_streamVector, CBlockHeader.toReader_unserializeStream, CTransaction.toReader_unserializeStream]

/-! ## The sizes of the pieces -/

open ReadProgram

variable {most : Nat}

theorem streamSize_bounded (eight : 8 ≤ most) : Bounded most (fun _ => True) streamSize := by
  have width {count : Nat} (le : count ≤ 8) : Bounded most (fun _ => True) (ReadProgram.littleEndian count) :=
    .littleEndian (le.trans eight)
  have first : Bounded most (fun _ => True) ReadProgram.byte := (Bounded.take (show 1 ≤ most by omega)).map
  apply first.bind
  intro chSize _
  split_ifs
  · exact .pure trivial
  · exact width (by decide)
  · exact width (by decide)
  · exact width (by decide)

theorem streamCompactSize_bounded (eight : 8 ≤ most) :
    Bounded most (fun nSize => nSize ≤ MAX_SIZE) streamCompactSize := by
  apply (streamSize_bounded eight).bind
  intro nSizeRet _
  split
  · trivial
  · exact .pure (by omega)

theorem streamBytes_bounded (large : MAX_SIZE ≤ most) : Bounded most (fun _ => True) streamBytes := by
  have eight : 8 ≤ most := le_trans (by decide) large
  apply (streamCompactSize_bounded eight).bind
  intro nSize le
  exact .takePieces (le.trans large)

theorem streamString_bounded (large : MAX_SIZE ≤ most) : Bounded most (fun _ => True) streamString := by
  have eight : 8 ≤ most := le_trans (by decide) large
  apply (streamCompactSize_bounded eight).bind
  intro nSize le
  split
  · exact .take (le.trans large)
  · exact .pure trivial

theorem streamVector_bounded {α : Type} {program : ReadProgram α} {property : α → Prop} (eight : 8 ≤ most)
    (each : Bounded most property program) : Bounded most (fun _ => True) (streamVector program) := by
  apply (streamCompactSize_bounded eight).bind
  intro nSize _
  exact each.repeated nSize

theorem COutPoint.unserializeStream_bounded (large : 32 ≤ most) :
    Bounded most (fun _ => True) COutPoint.unserializeStream := by
  apply (Bounded.littleEndian large).bind
  intro hash _
  exact (Bounded.littleEndian (show 4 ≤ most by omega)).map

theorem CTxIn.unserializeStream_bounded (large : MAX_SIZE ≤ most) :
    Bounded most (fun _ => True) CTxIn.unserializeStream := by
  have word : 32 ≤ most := le_trans (by decide) large
  apply (COutPoint.unserializeStream_bounded word).bind
  intro prevout _
  apply (streamBytes_bounded large).bind
  intro scriptSig _
  exact (Bounded.littleEndian (show 4 ≤ most by omega)).map

theorem CTxOut.unserializeStream_bounded (large : MAX_SIZE ≤ most) :
    Bounded most (fun _ => True) CTxOut.unserializeStream := by
  have eight : 8 ≤ most := le_trans (by decide) large
  apply (Bounded.littleEndian eight).bind
  intro nValue _
  exact (streamBytes_bounded large).map

theorem CTransaction.unserializeStream_bounded (large : MAX_SIZE ≤ most) :
    Bounded most (fun _ => True) CTransaction.unserializeStream := by
  have eight : 8 ≤ most := le_trans (by decide) large
  have four : 4 ≤ most := by omega
  apply (Bounded.littleEndian four).bind
  intro nVersion _
  apply (streamVector_bounded eight (CTxIn.unserializeStream_bounded large)).bind
  intro vin _
  apply (streamVector_bounded eight (CTxOut.unserializeStream_bounded large)).bind
  intro vout _
  apply (Bounded.littleEndian four).bind
  intro nLockTime _
  have comment : Bounded most (fun _ => True) (streamComment (UInt32.ofNat nVersion).toInt32) := by
    unfold streamComment
    split
    · exact streamString_bounded large
    · exact .pure trivial
  exact comment.map

theorem CBlockHeader.unserializeStream_bounded (large : 32 ≤ most) :
    Bounded most (fun _ => True) CBlockHeader.unserializeStream := by
  have four : 4 ≤ most := by omega
  apply (Bounded.littleEndian four).bind
  intro nVersion _
  apply (Bounded.littleEndian large).bind
  intro hashPrevBlock _
  apply (Bounded.littleEndian large).bind
  intro hashMerkleRoot _
  apply (Bounded.littleEndian four).bind
  intro nTime _
  apply (Bounded.littleEndian four).bind
  intro nBits _
  exact (Bounded.littleEndian four).map

theorem CBlock.unserializeStream_bounded (large : MAX_SIZE ≤ most) :
    Bounded most (fun _ => True) CBlock.unserializeStream := by
  have eight : 8 ≤ most := le_trans (by decide) large
  apply (CBlockHeader.unserializeStream_bounded (le_trans (by decide) large)).bind
  intro header _
  exact (streamVector_bounded eight (CTransaction.unserializeStream_bounded large)).map

end BitCrystal
