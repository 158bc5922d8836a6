import BitCrystal.Compressor
import BitCrystal.CoinsView

namespace BitCrystal

open Data

/-! # Undo data and coins entries on disk -/

/-- A 32-bit number read back into an `int`. -/
def toInt32 (n : Nat) : Int32 :=
  (UInt32.ofNat n).toInt32

def readInt32 : Reader Int32 := do
  let n ← readVarInt 32
  return toInt32 n

/-- What is left of an `int nVersion` that has been written as a VARINT: a
negative number stops the loop of WriteVarInt after its low seven bits. -/
def diskVersion (nVersion : Int32) : Int32 :=
  if 0 ≤ nVersion.toInt then nVersion else toInt32 (nVersion.toInt % 128).toNat

theorem toInt32_toInt {n : Nat} (fits : n < 2 ^ 31) : (toInt32 n).toInt = n := by
  unfold toInt32
  rw [← Int32.toInt_toBitVec, UInt32.toBitVec_toInt32, BitVec.toInt_eq_toNat_of_lt]
  · simp only [UInt32.toNat_toBitVec, UInt32.toNat_ofNat']
    omega
  · simp only [UInt32.toNat_toBitVec, UInt32.toNat_ofNat']
    omega

theorem diskVersion_nonneg (nVersion : Int32) : 0 ≤ (diskVersion nVersion).toInt := by
  unfold diskVersion
  split
  · assumption
  · rw [toInt32_toInt (by omega)]
    omega

theorem diskVersion_eq_self_iff {nVersion : Int32} :
    diskVersion nVersion = nVersion ↔ 0 ≤ nVersion.toInt := by
  constructor
  · intro same
    rw [← same]
    exact diskVersion_nonneg nVersion
  · intro nonneg
    exact if_pos nonneg

@[simp] theorem diskVersion_diskVersion (nVersion : Int32) :
    diskVersion (diskVersion nVersion) = diskVersion nVersion :=
  diskVersion_eq_self_iff.mpr (diskVersion_nonneg nVersion)

private theorem toInt_lt (nVersion : Int32) : nVersion.toInt < 2 ^ 31 := by
  have := Int32.toInt_lt nVersion
  omega

theorem writeVersion_reads (nVersion : Int32) :
    Reads readInt32 (writeVarInt 32 nVersion.toInt) (diskVersion nVersion) := by
  have upper := toInt_lt nVersion
  by_cases nonneg : 0 ≤ nVersion.toInt
  · obtain ⟨n, value⟩ := Int.eq_ofNat_of_zero_le nonneg
    have reads := (readVarInt_reads 32 (by decide) (show n < 2 ^ 32 by omega)).map toInt32
    have same : toInt32 n = nVersion := by
      apply Int32.toInt_inj.mp
      rw [toInt32_toInt (by omega), value]
    rw [diskVersion_eq_self_iff.mpr nonneg, value]
    rwa [same] at reads
  · have low : nVersion.toInt % 128 = ((nVersion.toInt % 128).toNat : Int) := by omega
    have reads := (readVarInt_reads 32 (by decide)
      (show (nVersion.toInt % 128).toNat < 2 ^ 32 by omega)).map toInt32
    rw [writeVarInt_negative (by decide) (by omega), diskVersion, if_neg nonneg, low]
    exact reads

/-! ## Outputs -/

namespace CTxOutCompressor

def serialize [PubKeys] (txout : CTxOut) : Bytes :=
  writeVarInt 64 (compressAmount txout.nValue.toUInt64.toNat : Nat) ++
    CScriptCompressor.serialize txout.scriptPubKey

def getSerializeSize [PubKeys] (txout : CTxOut) : Nat :=
  getSizeOfVarInt 64 (compressAmount txout.nValue.toUInt64.toNat : Nat) +
    CScriptCompressor.getSerializeSize txout.scriptPubKey

def unserialize [PubKeys] : Reader CTxOut := do
  let nVal ← readVarInt 64
  let scriptPubKey ← CScriptCompressor.unserialize
  return ⟨(UInt64.ofNat (decompressAmount nVal)).toInt64, scriptPubKey⟩

/-- The amount as a VARINT brings it back. -/
def restoredAmount (nValue : Int64) : Int64 :=
  (UInt64.ofNat (decompressAmount (compressAmount nValue.toUInt64.toNat))).toInt64

def restored (txout : CTxOut) : CTxOut :=
  { txout with nValue := restoredAmount txout.nValue }

theorem serialize_length [PubKeys] (txout : CTxOut) :
    (serialize txout).length = getSerializeSize txout := by
  simp only [serialize, getSerializeSize, List.length_append, writeVarInt_length,
    CScriptCompressor.serialize_length]

end CTxOutCompressor

open CTxOutCompressor (restoredAmount)

/-- An output that a transaction in a block can have. -/
structure CTxOut.Storable (txout : CTxOut) : Prop where
  money : moneyRange txout.value
  script : txout.scriptPubKey.length ≤ MAX_BLOCK_SIZE

theorem CTxOut.Storable.not_isNull {txout : CTxOut} (storable : txout.Storable) :
    txout.isNull = false :=
  CTxOut.not_isNull_of_value_nonneg (moneyRange_iff.mp storable.money).1

theorem compressAmount_lt (n : Nat) : compressAmount n < 2 ^ 64 := by
  unfold compressAmount
  split
  · decide
  · dsimp only
    split <;> exact Nat.mod_lt _ (by decide)

/-- Any output with a script of a size that fits comes back, but for its amount. -/
theorem CTxOutCompressor.reads_restored [PubKeys] {txout : CTxOut}
    (short : txout.scriptPubKey.length ≤ MAX_SIZE) :
    Reads CTxOutCompressor.unserialize (CTxOutCompressor.serialize txout) (CTxOutCompressor.restored txout) := by
  have amount := readVarInt_reads 64 (by decide) (compressAmount_lt txout.nValue.toUInt64.toNat)
  have fits : txout.scriptPubKey.length + CScriptCompressor.nSpecialScripts < 2 ^ 32 := by
    simp only [MAX_SIZE, CScriptCompressor.nSpecialScripts] at short ⊢
    omega
  refine amount.bind ?_
  exact (CScriptCompressor.unserialize_reads fits).map fun scriptPubKey => (⟨(UInt64.ofNat
    (decompressAmount (compressAmount txout.nValue.toUInt64.toNat))).toInt64, scriptPubKey⟩ : CTxOut)

theorem restoredAmount_eq {nValue : Int64} (money : moneyRange nValue.toInt) :
    restoredAmount nValue = nValue := by
  have range := moneyRange_iff.mp money
  have same := decompressAmount_compressAmount (n := nValue.toUInt64.toNat)
    (by rw [toUInt64_toNat range.1]; exact range.2)
  rw [restoredAmount, same, UInt64.ofNat_toNat]
  rfl

namespace CTxOut.Storable

variable {txout : CTxOut}

theorem short (storable : txout.Storable) : txout.scriptPubKey.length ≤ MAX_SIZE :=
  Nat.le_trans storable.script (by decide)

theorem restored_eq (storable : txout.Storable) : CTxOutCompressor.restored txout = txout := by
  rw [CTxOutCompressor.restored, restoredAmount_eq storable.money]

theorem reads [PubKeys] (storable : txout.Storable) :
    Reads CTxOutCompressor.unserialize (CTxOutCompressor.serialize txout) txout := by
  have reads := CTxOutCompressor.reads_restored storable.short
  rwa [storable.restored_eq] at reads

end CTxOut.Storable

/-! ## Vectors -/

def writeVector {α : Type} (write : α → Bytes) (values : List α) : Bytes :=
  writeCompactSize values.length ++ values.flatMap write

def readVector {α : Type} (reader : Reader α) : Reader (List α) := do
  let nSize ← readCompactSize
  reader.repeated nSize

/-- A vector is read back element by element, as whatever each element is read as. -/
theorem readVector_reads {α : Type} {reader : Reader α} {write : α → Bytes} {image : α → α}
    (values : List α) (bounded : values.length ≤ MAX_SIZE)
    (each : ∀ value ∈ values, Reads reader (write value) (image value)) :
    Reads (readVector reader) (writeVector write values) (values.map image) :=
  (readCompactSize_reads bounded).bind (Reads.repeated_map values each)

/-! ## Undo data -/

namespace CTxInUndo

/-- `nHeight*2+(fCoinBase ? 1 : 0)`, an unsigned int. -/
def nCode (undo : CTxInUndo) : Nat :=
  ((undo.nHeight * 2 + if undo.fCoinBase then 1 else 0) % 2 ^ 32).toNat

def serialize [PubKeys] (undo : CTxInUndo) : Bytes :=
  writeVarInt 32 (undo.nCode : Nat) ++
    ((if undo.nHeight ≠ 0 then writeVarInt 32 undo.nVersion.toInt else []) ++
      CTxOutCompressor.serialize undo.txout)

/-- The version is there only with a height. -/
def unserializeVersion (nHeight : Nat) : Reader Int32 :=
  if 0 < nHeight then readInt32 else pure 0

def unserialize [PubKeys] : Reader CTxInUndo := do
  let nCode ← readVarInt 32
  let nVersion ← unserializeVersion (nCode / 2)
  let txout ← CTxOutCompressor.unserialize
  return ⟨txout, nCode % 2 ≠ 0, (nCode / 2 : Nat), nVersion⟩

def onDisk (undo : CTxInUndo) : CTxInUndo :=
  { undo with nVersion := diskVersion undo.nVersion }

/-- Undo information whose height fits and that has a version only with a height. -/
structure Sized (undo : CTxInUndo) : Prop where
  script : undo.txout.scriptPubKey.length ≤ MAX_SIZE
  height : 0 ≤ undo.nHeight ∧ undo.nHeight < 2 ^ 31
  version : undo.nHeight = 0 → undo.nVersion = 0

/-- It comes back, but for its amount and for a negative version. -/
theorem Sized.reads [PubKeys] {undo : CTxInUndo} (sized : undo.Sized) :
    Reads unserialize undo.serialize { undo.onDisk with txout := CTxOutCompressor.restored undo.txout } := by
  obtain ⟨script, ⟨lower, upper⟩, version⟩ := sized
  obtain ⟨height, heightEq⟩ := Int.eq_ofNat_of_zero_le lower
  have code : undo.nCode = height * 2 + if undo.fCoinBase then 1 else 0 := by
    unfold nCode
    rw [heightEq]
    split <;> omega
  have flag : (if undo.fCoinBase then 1 else 0 : Nat) < 2 := by split <;> decide
  have half : undo.nCode / 2 = height := by omega
  have bit : (decide (undo.nCode % 2 ≠ 0)) = undo.fCoinBase := by
    rw [code, Nat.mul_comm, Nat.mul_add_mod]
    cases undo.fCoinBase <;> rfl
  have first := readVarInt_reads 32 (by decide) (show undo.nCode < 2 ^ 32 by omega)
  refine first.bind ?_
  have versionReads : Reads (unserializeVersion (undo.nCode / 2))
      (if undo.nHeight ≠ 0 then writeVarInt 32 undo.nVersion.toInt else [])
      (diskVersion undo.nVersion) := by
    unfold unserializeVersion
    by_cases zero : undo.nHeight = 0
    · rw [if_neg (by omega), if_neg (by simpa using zero), version zero]
      exact Reads.pure 0
    · rw [if_pos (by omega), if_pos zero]
      exact writeVersion_reads undo.nVersion
  refine versionReads.bind ?_
  have whole := (CTxOutCompressor.reads_restored script).map fun txout =>
    (⟨txout, undo.nCode % 2 ≠ 0, (undo.nCode / 2 : Nat), diskVersion undo.nVersion⟩ : CTxInUndo)
  rw [half, bit, ← heightEq] at whole ⊢
  exact whole

/-- Undo information as CCoins::Spend makes it for an entry in the chain. -/
structure Storable (undo : CTxInUndo) : Prop where
  txout : undo.txout.Storable
  height : 0 ≤ undo.nHeight ∧ undo.nHeight < 2 ^ 31
  version : undo.nHeight = 0 → undo.nVersion = 0

theorem Storable.onDisk {undo : CTxInUndo} (storable : undo.Storable) : undo.onDisk.Storable := by
  refine ⟨storable.txout, storable.height, fun zero => ?_⟩
  show diskVersion undo.nVersion = 0
  rw [storable.version zero]
  rfl

theorem Storable.reads [PubKeys] {undo : CTxInUndo} (storable : undo.Storable) :
    Reads unserialize undo.serialize undo.onDisk := by
  have sized : undo.Sized := ⟨storable.txout.short, storable.height, storable.version⟩
  have reads := sized.reads
  rwa [storable.txout.restored_eq] at reads

theorem serialize_onDisk [PubKeys] (undo : CTxInUndo) : undo.onDisk.serialize = undo.serialize := by
  have version : writeVarInt 32 (diskVersion undo.nVersion).toInt = writeVarInt 32 undo.nVersion.toInt := by
    by_cases nonneg : 0 ≤ undo.nVersion.toInt
    · rw [diskVersion_eq_self_iff.mpr nonneg]
    · have low : (diskVersion undo.nVersion).toInt = undo.nVersion.toInt % 128 := by
        rw [diskVersion, if_neg nonneg, toInt32_toInt (by omega)]
        omega
      rw [low]
      exact (writeVarInt_negative (by decide) (by omega)).symm
  simp only [serialize, onDisk, version]
  rfl

end CTxInUndo

def CTxUndo.serialize [PubKeys] (txundo : CTxUndo) : Bytes :=
  writeVector CTxInUndo.serialize txundo

def CTxUndo.unserialize [PubKeys] : Reader CTxUndo :=
  readVector CTxInUndo.unserialize

namespace CBlockUndo

def serialize [PubKeys] (blockundo : CBlockUndo) : Bytes :=
  writeVector CTxUndo.serialize blockundo

def unserialize [PubKeys] : Reader CBlockUndo :=
  readVector CTxUndo.unserialize

def checksum [PubKeys] [Hashing] (blockundo : CBlockUndo) (hashBlock : UInt256) : UInt256 :=
  Hashing.Hash (littleEndian 32 hashBlock.toNat ++ blockundo.serialize)

/-- The bytes that WriteToDisk leaves at the position it returns. -/
def writeToDisk [PubKeys] [Hashing] (blockundo : CBlockUndo) (hashBlock : UInt256) : Bytes :=
  blockundo.serialize ++ littleEndian 32 (blockundo.checksum hashBlock).toNat

def unserializeWithChecksum [PubKeys] : Reader (CBlockUndo × Nat) := do
  let blockundo ← unserialize
  let hashChecksum ← Reader.littleEndian 32
  return (blockundo, hashChecksum)

def readFromDisk [PubKeys] [Hashing] (file : Bytes) (hashBlock : UInt256) : Option CBlockUndo :=
  match unserializeWithChecksum file with
  | none => none
  | some ((blockundo, hashChecksum), _) =>
      if hashChecksum = (blockundo.checksum hashBlock).toNat then some blockundo else none

def onDisk (blockundo : CBlockUndo) : CBlockUndo :=
  blockundo.map fun txundo => txundo.map CTxInUndo.onDisk

structure Storable (blockundo : CBlockUndo) : Prop where
  size : blockundo.length ≤ MAX_SIZE
  sizes : ∀ txundo ∈ blockundo, txundo.length ≤ MAX_SIZE
  undos : ∀ txundo ∈ blockundo, ∀ undo ∈ txundo, undo.Storable

theorem Storable.reads [PubKeys] {blockundo : CBlockUndo} (storable : blockundo.Storable) :
    Reads unserialize blockundo.serialize blockundo.onDisk :=
  readVector_reads blockundo storable.size fun txundo member =>
    readVector_reads txundo (storable.sizes txundo member) fun undo inner =>
      (storable.undos txundo member undo inner).reads

theorem serialize_onDisk [PubKeys] (blockundo : CBlockUndo) :
    blockundo.onDisk.serialize = blockundo.serialize := by
  have inner : ∀ txundo : CTxUndo,
      CTxUndo.serialize (txundo.map CTxInUndo.onDisk) = txundo.serialize := by
    intro txundo
    simp [CTxUndo.serialize, writeVector, List.flatMap_map, CTxInUndo.serialize_onDisk]
  simp [serialize, onDisk, writeVector, List.flatMap_map, inner]

theorem Storable.reads_writeToDisk [PubKeys] [Hashing] {blockundo : CBlockUndo}
    (storable : blockundo.Storable) (hashBlock : UInt256) :
    Reads unserializeWithChecksum (blockundo.writeToDisk hashBlock)
      (blockundo.onDisk, (blockundo.checksum hashBlock).toNat) := by
  have checksum := Reads.littleEndian 32 (blockundo.checksum hashBlock).toNat
    (Nat.lt_of_lt_of_le (BitVec.isLt _) (by decide))
  exact storable.reads.bind (checksum.map fun hashChecksum => (blockundo.onDisk, hashChecksum))

theorem Storable.readFromDisk_writeToDisk [PubKeys] [Hashing] {blockundo : CBlockUndo}
    (storable : blockundo.Storable) (hashBlock : UInt256) (rest : Bytes) :
    readFromDisk (blockundo.writeToDisk hashBlock ++ rest) hashBlock = some blockundo.onDisk := by
  have whole := storable.reads_writeToDisk hashBlock
  have same : blockundo.onDisk.checksum hashBlock = blockundo.checksum hashBlock := by
    rw [CBlockUndo.checksum, serialize_onDisk]
    rfl
  unfold readFromDisk
  rw [whole rest]
  simp [same]

theorem Storable.of_readFromDisk [PubKeys] [Hashing] {blockundo read : CBlockUndo}
    (storable : blockundo.Storable) {hashBlock prev : UInt256}
    (accepted : readFromDisk (blockundo.writeToDisk hashBlock) prev = some read) :
    ∀ txundo ∈ read, ∀ undo ∈ txundo, undo.Storable := by
  have whole := storable.reads_writeToDisk hashBlock
  unfold readFromDisk at accepted
  rw [← List.append_nil (blockundo.writeToDisk hashBlock), whole []] at accepted
  simp only [Option.ite_none_right_eq_some, Option.some.injEq] at accepted
  obtain ⟨_, rfl⟩ := accepted
  intro txundo member undo inUndo
  obtain ⟨written, inBlock, rfl⟩ := List.mem_map.mp member
  obtain ⟨source, inSource, rfl⟩ := List.mem_map.mp inUndo
  exact (storable.undos written inBlock source inSource).onDisk

end CBlockUndo

/-! ## The spentness bit vector -/

/-- Bit `i` of the byte says whether `avail i` holds. -/
def availByte (avail : Nat → Bool) : UInt8 :=
  (List.range 8).foldl (fun chAvail i => if avail i then chAvail ||| (1 <<< UInt8.ofNat i) else chAvail) 0

def availBits (chAvail : UInt8) : List Bool :=
  (List.range 8).map fun p => chAvail &&& (1 <<< UInt8.ofNat p) ≠ 0

theorem availBits_availByte (avail : Nat → Bool) :
    availBits (availByte avail) = (List.range 8).map avail := by
  have range : List.range 8 = [0, 1, 2, 3, 4, 5, 6, 7] := rfl
  simp only [availBits, availByte, range, List.foldl_cons, List.foldl_nil, List.map_cons, List.map_nil]
  generalize avail 0 = b0
  generalize avail 1 = b1
  generalize avail 2 = b2
  generalize avail 3 = b3
  generalize avail 4 = b4
  generalize avail 5 = b5
  generalize avail 6 = b6
  generalize avail 7 = b7
  revert b0 b1 b2 b3 b4 b5 b6 b7
  decide

theorem availByte_eq_zero_iff {avail : Nat → Bool} :
    availByte avail = 0 ↔ ∀ i < 8, avail i = false := by
  constructor
  · intro zero i small
    have bits := availBits_availByte avail
    rw [zero] at bits
    have bit := congrArg (·[i]?) bits
    simp only [availBits, List.getElem?_map, List.getElem?_range small, Option.map_some,
      Option.some.injEq] at bit
    rw [← bit]
    simp
  · intro none
    have range : List.range 8 = [0, 1, 2, 3, 4, 5, 6, 7] := rfl
    simp [availByte, range, none]

/-- The loop that reads bytes of the vector until it has seen `nMaskCode` nonzero ones. -/
def readMask : Nat → Bytes → Option (List Bool × Bytes)
  | 0, input => some ([], input)
  | _ + 1, [] => none
  | nMaskCode + 1, chAvail :: rest =>
      (readMask (if chAvail ≠ 0 then nMaskCode else nMaskCode + 1) rest).map fun (vAvail, rest) =>
        (availBits chAvail ++ vAvail, rest)

theorem readMask_reads (mask : Bytes) (last : ∀ byte, mask.getLast? = some byte → byte ≠ 0) :
    Reads (readMask (mask.countP (· ≠ 0))) mask (mask.flatMap availBits) := by
  intro rest
  induction mask with
  | nil => simp [readMask]
  | cons chAvail tail ih =>
      have tailLast : ∀ byte, tail.getLast? = some byte → byte ≠ 0 := by
        intro byte found
        apply last
        rw [List.getLast?_cons, found]
        rfl
      by_cases zero : chAvail = 0
      · have more : tail ≠ [] := by
          intro none
          exact last chAvail (by simp [none]) zero
        obtain ⟨byte, found⟩ : ∃ byte, tail.getLast? = some byte :=
          Option.isSome_iff_exists.mp (by simp [more])
        have positive : 0 < tail.countP (· ≠ 0) :=
          List.countP_pos_iff.mpr ⟨byte, List.mem_of_getLast? found, by simpa using tailLast byte found⟩
        have count : (chAvail :: tail).countP (· ≠ 0) = tail.countP (· ≠ 0) := by
          simp [zero]
        obtain ⟨fewer, countEq⟩ : ∃ fewer, tail.countP (· ≠ 0) = fewer + 1 :=
          ⟨_, (Nat.succ_pred_eq_of_pos positive).symm⟩
        have read := ih tailLast
        rw [countEq] at read
        rw [count, countEq, List.cons_append, readMask, if_neg (by simpa using zero), read]
        rfl
      · have count : (chAvail :: tail).countP (· ≠ 0) = tail.countP (· ≠ 0) + 1 := by
          simp [zero]
        rw [count, List.cons_append, readMask, if_pos zero, ih tailLast]
        rfl

/-! ## Coins entries -/

namespace CCoins

/-- The byte of the bit vector for outputs `2+8b` to `2+8b+7`. -/
def maskByte (coins : CCoins) (b : Nat) : UInt8 :=
  availByte fun i => coins.isAvailable (2 + b * 8 + i)

/-- One turn of CalcMaskSize, with `(nLastUsedByte, nNonzeroBytes)`. -/
def countMaskByte (coins : CCoins) (size : Nat × Nat) (b : Nat) : Nat × Nat :=
  if coins.maskByte b = 0 then size else (b + 1, size.2 + 1)

/-- CalcMaskSize; the loop runs while `2+b*8 < vout.size()`. -/
def calcMaskSize (coins : CCoins) : Nat × Nat :=
  (List.range ((coins.vout.length + 5) / 8)).foldl coins.countMaskByte (0, 0)

def maskBytes (coins : CCoins) : Bytes :=
  (List.range coins.calcMaskSize.1).map coins.maskByte

def nCode (coins : CCoins) : Nat :=
  8 * (coins.calcMaskSize.2 - if coins.isAvailable 0 || coins.isAvailable 1 then 0 else 1) +
    (if coins.fCoinBase then 1 else 0) + (if coins.isAvailable 0 then 2 else 0) +
    if coins.isAvailable 1 then 4 else 0

def serializeOutputs [PubKeys] (vout : List CTxOut) : Bytes :=
  vout.flatMap fun txout => if txout.isNull then [] else CTxOutCompressor.serialize txout

def serialize [PubKeys] (coins : CCoins) : Bytes :=
  writeVarInt 32 coins.nVersion.toInt ++ (writeVarInt 32 (coins.nCode : Nat) ++ (coins.maskBytes ++
    (serializeOutputs coins.vout ++ writeVarInt 32 coins.nHeight)))

def getSerializeSize [PubKeys] (coins : CCoins) : Nat :=
  getSizeOfVarInt 32 coins.nVersion.toInt + getSizeOfVarInt 32 (coins.nCode : Nat) + coins.calcMaskSize.1 +
    (coins.vout.map fun txout => if txout.isNull then 0 else CTxOutCompressor.getSerializeSize txout).sum +
    getSizeOfVarInt 32 coins.nHeight

theorem serialize_length [PubKeys] (coins : CCoins) : coins.serialize.length = coins.getSerializeSize := by
  have outputs : (serializeOutputs coins.vout).length =
      (coins.vout.map fun txout => if txout.isNull then 0 else CTxOutCompressor.getSerializeSize txout).sum := by
    rw [serializeOutputs, List.length_flatMap]
    congr 1
    apply List.map_congr_left
    intro txout _
    split
    · rfl
    · exact CTxOutCompressor.serialize_length txout
  simp only [serialize, getSerializeSize, maskBytes, List.length_append, writeVarInt_length, List.length_map,
    List.length_range, outputs]
  omega

/-- A spent output is left as `CTxOut()`. -/
def unserializeOutput [PubKeys] (available : Bool) : Reader CTxOut :=
  if available then CTxOutCompressor.unserialize else pure CTxOut.null

def unserializeOutputs [PubKeys] : List Bool → Reader (List CTxOut)
  | [] => pure []
  | available :: vAvail => do
      let txout ← unserializeOutput available
      let vout ← unserializeOutputs vAvail
      return txout :: vout

def unserialize [PubKeys] : Reader CCoins := do
  let nVersion ← readInt32
  let nCode ← readVarInt 32
  let vMask ← readMask (nCode / 8 + if nCode / 2 % 4 ≠ 0 then 0 else 1)
  let vAvail := (nCode / 2 % 2 ≠ 0 : Bool) :: (nCode / 4 % 2 ≠ 0 : Bool) :: vMask
  let vout ← unserializeOutputs vAvail
  let nHeight ← readInt32
  return cleanup ⟨nCode % 2 ≠ 0, vout, nHeight.toInt, nVersion⟩

/-- The sizes of an entry. No vector and no script that a stream has delivered
is longer than MAX_SIZE, and the height is an `int`. -/
structure Sized (coins : CCoins) : Prop where
  outputs : coins.vout.length ≤ MAX_SIZE
  scripts : ∀ nPos txout, coins.output nPos = some txout → txout.scriptPubKey.length ≤ MAX_SIZE
  height : -2 ^ 31 ≤ coins.nHeight ∧ coins.nHeight < 2 ^ 31

/-- What becomes of one position of vout. -/
def outputRestored (coins : CCoins) (nPos : Nat) : CTxOut :=
  ((coins.output nPos).map CTxOutCompressor.restored).getD CTxOut.null

def diskHeight (nHeight : Int) : Int :=
  (diskVersion (Int32.ofInt nHeight)).toInt

/-- What is read back of an entry. -/
def reloaded (coins : CCoins) : CCoins :=
  cleanup ⟨coins.fCoinBase, (List.range (2 + coins.calcMaskSize.1 * 8)).map coins.outputRestored,
    diskHeight coins.nHeight, diskVersion coins.nVersion⟩

/-- An entry as transactions of the chain make them. -/
structure Storable (coins : CCoins) : Prop where
  outputs : ∀ nPos txout, coins.output nPos = some txout → txout.Storable
  height : 0 ≤ coins.nHeight ∧ coins.nHeight < 2 ^ 31
  size : coins.vout.length ≤ MAX_BLOCK_SIZE

/-- What reading an entry back from the database gives. -/
structure OnDisk (coins stored : CCoins) : Prop where
  output : ∀ nPos, stored.output nPos = coins.output nPos
  clean : stored.Clean
  fCoinBase : stored.fCoinBase = coins.fCoinBase
  nHeight : stored.nHeight = coins.nHeight
  nVersion : stored.nVersion = diskVersion coins.nVersion

private theorem countMaskByte_run (coins : CCoins) (turns : Nat) :
    let size := (List.range turns).foldl coins.countMaskByte (0, 0)
    let mask := (List.range size.1).map coins.maskByte
    (∀ b, size.1 ≤ b → b < turns → coins.maskByte b = 0) ∧
      (∀ byte, mask.getLast? = some byte → byte ≠ 0) ∧
      size.2 = mask.countP (· ≠ 0) ∧ size.1 ≤ turns := by
  induction turns with
  | zero => simp
  | succ turns ih =>
      rw [List.range_succ, List.foldl_append, List.foldl_cons, List.foldl_nil]
      generalize (List.range turns).foldl coins.countMaskByte (0, 0) = size at ih
      obtain ⟨zeros, last, count, bound⟩ := ih
      unfold countMaskByte
      by_cases zero : coins.maskByte turns = 0
      · rw [if_pos zero]
        refine ⟨?_, last, count, by omega⟩
        intro b after before
        rcases Nat.lt_succ_iff_lt_or_eq.mp before with before | rfl
        · exact zeros b after before
        · exact zero
      · rw [if_neg zero]
        have skipped : ((List.range turns).map coins.maskByte).countP (· ≠ 0) =
            ((List.range size.1).map coins.maskByte).countP (· ≠ 0) := by
          obtain ⟨more, turnsEq⟩ := Nat.exists_eq_add_of_le bound
          have none : ((List.range more).map fun b => coins.maskByte (size.1 + b)).countP (· ≠ 0) = 0 := by
            rw [List.countP_eq_zero]
            intro byte member
            obtain ⟨b, small, rfl⟩ := List.mem_map.mp member
            have := List.mem_range.mp small
            simpa using zeros (size.1 + b) (by omega) (by omega)
          rw [turnsEq, List.range_add, List.map_append, List.countP_append, List.map_map]
          simpa [Function.comp_def] using none
        refine ⟨fun b after before => by simp only at after; omega, ?_, ?_, Nat.le_refl _⟩
        · intro byte found
          rw [List.range_succ, List.map_append, List.map_singleton, List.getLast?_concat] at found
          cases found
          exact zero
        · rw [List.range_succ, List.map_append, List.countP_append, skipped, ← count]
          simp [zero]

theorem output_beyond {coins : CCoins} {nPos : Nat} (beyond : coins.vout.length ≤ nPos) :
    coins.output nPos = none := by
  simp [CCoins.output, List.getElem?_eq_none beyond]

private theorem output_none_of_isAvailable {coins : CCoins} {nPos : Nat}
    (spent : coins.isAvailable nPos = false) : coins.output nPos = none := by
  simpa [isAvailable] using spent

private theorem output_beyond_mask {coins : CCoins} {nPos : Nat}
    (beyond : 2 + coins.calcMaskSize.1 * 8 ≤ nPos) : coins.output nPos = none := by
  by_cases within : nPos < coins.vout.length
  · have zeros := (countMaskByte_run coins ((coins.vout.length + 5) / 8)).1
    have covered := zeros ((nPos - 2) / 8) (by
      show coins.calcMaskSize.1 ≤ (nPos - 2) / 8
      omega) (by omega)
    have spent := availByte_eq_zero_iff.mp covered ((nPos - 2) % 8) (Nat.mod_lt _ (by decide))
    have place : 2 + (nPos - 2) / 8 * 8 + (nPos - 2) % 8 = nPos := by omega
    rw [place] at spent
    exact output_none_of_isAvailable spent
  · exact output_beyond (by omega)

private theorem vAvail_eq (avail : Nat → Bool) (count : Nat) :
    avail 0 :: avail 1 :: ((List.range count).map fun b =>
      availByte fun i => avail (2 + b * 8 + i)).flatMap availBits =
      (List.range (2 + count * 8)).map avail := by
  induction count with
  | zero => rfl
  | succ count ih =>
      have size : 2 + (count + 1) * 8 = (2 + count * 8) + 8 := by omega
      rw [List.range_succ, List.map_append, List.flatMap_append, size, List.range_add,
        List.map_append, ← ih]
      simp [availBits_availByte]

private def bytesAt [PubKeys] (coins : CCoins) (nPos : Nat) : Bytes :=
  match coins.output nPos with
  | none => []
  | some txout => CTxOutCompressor.serialize txout

private theorem unserializeOutputs_reads [PubKeys] {coins : CCoins} (sized : coins.Sized)
    (positions : List Nat) :
    Reads (unserializeOutputs (positions.map coins.isAvailable)) (positions.flatMap coins.bytesAt)
      (positions.map coins.outputRestored) := by
  induction positions with
  | nil => exact Reads.pure []
  | cons nPos rest ih =>
      have first : Reads (unserializeOutput (coins.isAvailable nPos)) (coins.bytesAt nPos)
          (coins.outputRestored nPos) := by
        unfold unserializeOutput isAvailable bytesAt outputRestored
        cases found : coins.output nPos with
        | none => exact Reads.pure CTxOut.null
        | some txout => exact CTxOutCompressor.reads_restored (sized.scripts nPos txout found)
      exact first.bind (ih.map (coins.outputRestored nPos :: ·))

private theorem serializeOutputs_eq [PubKeys] (coins : CCoins) :
    serializeOutputs coins.vout = (List.range coins.vout.length).flatMap coins.bytesAt := by
  have positions : coins.vout = (List.range coins.vout.length).map fun nPos =>
      coins.vout[nPos]?.getD CTxOut.null := by
    apply List.ext_getElem?
    intro nPos
    by_cases within : nPos < coins.vout.length
    · simp [List.getElem?_map, List.getElem?_range within, List.getElem?_eq_getElem within]
    · rw [List.getElem?_eq_none (by omega), List.getElem?_eq_none (by simpa using within)]
  conv => lhs; rw [positions]
  rw [serializeOutputs, List.flatMap_map]
  apply List.flatMap_congr
  intro nPos member
  have within := List.mem_range.mp member
  simp only [bytesAt, CCoins.output, List.getElem?_eq_getElem within, Option.getD_some]
  cases isNull : coins.vout[nPos].isNull with
  | true => simp [Option.filter_some, isNull]
  | false => simp [Option.filter_some, isNull]

private theorem flatMap_range_eq {g : Nat → Bytes} {a b : Nat} (within : a ≤ b)
    (nothing : ∀ i, a ≤ i → g i = []) : (List.range b).flatMap g = (List.range a).flatMap g := by
  obtain ⟨more, rfl⟩ := Nat.exists_eq_add_of_le within
  rw [List.range_add, List.flatMap_append, List.flatMap_map]
  have empty : (List.range more).flatMap (fun i => g (a + i)) = [] := by
    simp [List.flatMap_eq_nil_iff, nothing]
  rw [empty, List.append_nil]

/-- The assertion of Serialize: a pruned entry has no encoding. -/
private theorem isAvailable_or_mask {coins : CCoins} (unspent : coins.isPruned = false) :
    coins.isAvailable 0 = true ∨ coins.isAvailable 1 = true ∨ 0 < coins.calcMaskSize.2 := by
  obtain ⟨nPos, txout, found⟩ := exists_output_of_not_isPruned unspent
  obtain ⟨_, last, count, _⟩ := countMaskByte_run coins ((coins.vout.length + 5) / 8)
  match nPos with
  | 0 => exact .inl (by simp [isAvailable, found])
  | 1 => exact .inr (.inl (by simp [isAvailable, found]))
  | more + 2 =>
      refine .inr (.inr ?_)
      have covered : more / 8 < coins.calcMaskSize.1 := by
        by_contra beyond
        rw [output_beyond_mask (by omega)] at found
        contradiction
      have nonempty : coins.maskBytes ≠ [] := by
        intro none
        have length := congrArg List.length none
        simp only [maskBytes, List.length_map, List.length_range, List.length_nil] at length
        omega
      obtain ⟨byte, lastByte⟩ : ∃ byte, coins.maskBytes.getLast? = some byte :=
        Option.isSome_iff_exists.mp (by simpa using nonempty)
      show 0 < coins.calcMaskSize.2
      rw [show coins.calcMaskSize.2 = coins.maskBytes.countP (· ≠ 0) from count]
      exact List.countP_pos_iff.mpr
        ⟨byte, List.mem_of_getLast? lastByte, by simpa using last byte lastByte⟩

private theorem nCode_decode {coins : CCoins} (unspent : coins.isPruned = false) :
    (coins.nCode / 8 + if coins.nCode / 2 % 4 ≠ 0 then 0 else 1) = coins.calcMaskSize.2 ∧
      (coins.nCode % 2 ≠ 0 : Bool) = coins.fCoinBase ∧
      (coins.nCode / 2 % 2 ≠ 0 : Bool) = coins.isAvailable 0 ∧
      (coins.nCode / 4 % 2 ≠ 0 : Bool) = coins.isAvailable 1 := by
  have some := isAvailable_or_mask unspent
  unfold nCode
  generalize coins.calcMaskSize.2 = nMaskCode at some
  generalize coins.isAvailable 0 = first at some
  generalize coins.isAvailable 1 = second at some
  cases first <;> cases second <;> cases coins.fCoinBase <;>
    simp only [Bool.false_eq_true, false_or, true_or, or_true, Bool.or_self, Bool.or_true, Bool.true_or,
      if_true, if_false, decide_eq_true_eq, decide_eq_false_iff_not] at some ⊢ <;>
    (refine ⟨?_, ?_, ?_, ?_⟩ <;> first | omega | (split <;> omega))

private theorem diskHeight_reads {nHeight : Int} (range : -2 ^ 31 ≤ nHeight ∧ nHeight < 2 ^ 31) :
    Reads readInt32 (writeVarInt 32 nHeight) (diskVersion (Int32.ofInt nHeight)) := by
  have value : (Int32.ofInt nHeight).toInt = nHeight :=
    Int32.toInt_ofInt_of_le range.1 range.2
  have reads := writeVersion_reads (Int32.ofInt nHeight)
  rwa [value] at reads

theorem diskHeight_eq_self_iff {nHeight : Int} (range : -2 ^ 31 ≤ nHeight ∧ nHeight < 2 ^ 31) :
    diskHeight nHeight = nHeight ↔ 0 ≤ nHeight := by
  have value : (Int32.ofInt nHeight).toInt = nHeight :=
    Int32.toInt_ofInt_of_le range.1 range.2
  constructor
  · intro same
    rw [← same]
    exact diskVersion_nonneg _
  · intro nonneg
    rw [diskHeight, diskVersion_eq_self_iff.mpr (by rw [value]; exact nonneg), value]

theorem Sized.calcMaskSize_le {coins : CCoins} (sized : coins.Sized) :
    coins.calcMaskSize.2 ≤ coins.calcMaskSize.1 ∧ 8 * coins.calcMaskSize.1 ≤ MAX_SIZE + 8 := by
  obtain ⟨_, _, count, turns⟩ := countMaskByte_run coins ((coins.vout.length + 5) / 8)
  have bound : coins.calcMaskSize.1 ≤ (coins.vout.length + 5) / 8 := turns
  have size := sized.outputs
  constructor
  · have nonzero := List.countP_le_length (p := (· ≠ 0)) (l := coins.maskBytes)
    rw [maskBytes, List.length_map, List.length_range] at nonzero
    exact Nat.le_trans (Nat.le_of_eq count) nonzero
  · omega

private theorem serializeOutputs_positions [PubKeys] (coins : CCoins) :
    serializeOutputs coins.vout =
      (List.range (2 + coins.calcMaskSize.1 * 8)).flatMap coins.bytesAt := by
  have spent : ∀ nPos, min coins.vout.length (2 + coins.calcMaskSize.1 * 8) ≤ nPos →
      coins.bytesAt nPos = [] := by
    intro nPos beyond
    have none : coins.output nPos = none := by
      rcases Nat.lt_or_ge nPos coins.vout.length with within | beyond
      · exact output_beyond_mask (by omega)
      · exact output_beyond beyond
    rw [bytesAt, none]
  rw [serializeOutputs_eq, flatMap_range_eq (Nat.min_le_left _ _) spent,
    ← flatMap_range_eq (Nat.min_le_right _ _) spent]

theorem Sized.reads_reloaded [PubKeys] {coins : CCoins} (sized : coins.Sized)
    (unspent : coins.isPruned = false) : Reads unserialize coins.serialize coins.reloaded := by
  obtain ⟨_, last, count, _⟩ := countMaskByte_run coins ((coins.vout.length + 5) / 8)
  obtain ⟨maskCode, coinBase, first, second⟩ := nCode_decode unspent
  obtain ⟨nonzero, bound⟩ := sized.calcMaskSize_le
  have codeFits : coins.nCode < 2 ^ 32 := by
    simp only [MAX_SIZE] at bound
    unfold nCode
    split_ifs <;> omega
  let positions := List.range (2 + coins.calcMaskSize.1 * 8)
  have mask : coins.isAvailable 0 :: coins.isAvailable 1 :: coins.maskBytes.flatMap availBits =
      positions.map coins.isAvailable :=
    vAvail_eq coins.isAvailable coins.calcMaskSize.1
  have maskReads := readMask_reads coins.maskBytes last
  rw [← show coins.calcMaskSize.2 = coins.maskBytes.countP (· ≠ 0) from count] at maskReads
  have restoredHeight := (diskHeight_reads sized.height).map fun nHeight =>
    cleanup ⟨coins.fCoinBase, positions.map coins.outputRestored, nHeight.toInt, diskVersion coins.nVersion⟩
  refine (writeVersion_reads coins.nVersion).bind ?_
  refine (readVarInt_reads 32 (by decide) codeFits).bind ?_
  rw [maskCode, coinBase, first, second]
  refine maskReads.bind ?_
  rw [mask, serializeOutputs_positions]
  exact (unserializeOutputs_reads sized positions).bind restoredHeight

theorem output_reloaded (coins : CCoins) (nPos : Nat) :
    coins.reloaded.output nPos = ((coins.output nPos).map CTxOutCompressor.restored).filter (!CTxOut.isNull ·) := by
  rw [reloaded, output_cleanup]
  by_cases within : nPos < 2 + coins.calcMaskSize.1 * 8
  · simp only [output, List.getElem?_map, List.getElem?_range within, Option.map_some, outputRestored]
    cases coins.vout[nPos]?.filter (!CTxOut.isNull ·) with
    | none => rfl
    | some txout => rfl
  · have none : coins.output nPos = none := output_beyond_mask (by omega)
    rw [none]
    exact output_beyond (by simpa using within)

namespace Storable

variable {coins : CCoins}

theorem sized (storable : coins.Storable) : coins.Sized where
  outputs := Nat.le_trans storable.size (by decide)
  scripts nPos txout found := (storable.outputs nPos txout found).short
  height := by
    obtain ⟨lower, upper⟩ := storable.height
    omega

/-- An entry with an unspent output survives the database, but for a negative version. -/
theorem onDisk_exists [PubKeys] (storable : coins.Storable) (unspent : coins.isPruned = false) :
    ∃ stored, Reads unserialize coins.serialize stored ∧ OnDisk coins stored := by
  refine ⟨coins.reloaded, storable.sized.reads_reloaded unspent, ?_, clean_cleanup _, rfl, ?_, rfl⟩
  · intro nPos
    rw [output_reloaded]
    cases found : coins.output nPos with
    | none => rfl
    | some txout =>
        have output := storable.outputs nPos txout found
        simp [Option.filter_some, output.restored_eq, output.not_isNull]
  · exact (diskHeight_eq_self_iff storable.sized.height).mpr storable.height.1

end Storable

end CCoins

end BitCrystal
