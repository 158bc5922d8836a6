import BitCrystal.UpdateCoins

namespace BitCrystal

open Data

/-! # Transactions on the wire

The hash of a transaction is the hash of its bytes, so what two transactions
with the same hash have in common is what can be read back from the bytes. -/

namespace COutPoint

def unserialize : Reader COutPoint := do
  let hash ← Reader.littleEndian 32
  let n ← Reader.littleEndian 4
  return ⟨BitVec.ofNat 256 hash, UInt32.ofNat n⟩

theorem reads (outpoint : COutPoint) : Reads unserialize outpoint.serialize outpoint := by
  have hash := Reads.littleEndian 32 outpoint.hash.toNat (by simpa using outpoint.hash.isLt)
  have n := Reads.littleEndian 4 outpoint.n.toNat (by simpa using outpoint.n.toNat_lt)
  refine hash.bind ?_
  simpa using n.map fun n => (⟨BitVec.ofNat 256 outpoint.hash.toNat, UInt32.ofNat n⟩ : COutPoint)

theorem serialize_length (outpoint : COutPoint) : outpoint.serialize.length = 36 := by
  simp [serialize]

end COutPoint

/-- A vector of bytes or a string. -/
def readBytes : Reader Bytes := do
  let nSize ← readCompactSize
  Reader.take nSize

theorem readBytes_reads {bytes : Bytes} (bounded : bytes.length ≤ MAX_SIZE) :
    Reads readBytes (writeCompactSize bytes.length ++ bytes) bytes :=
  (readCompactSize_reads bounded).bind (Reads.take bytes)

namespace CTxIn

def unserialize : Reader CTxIn := do
  let prevout ← COutPoint.unserialize
  let scriptSig ← readBytes
  let nSequence ← Reader.littleEndian 4
  return ⟨prevout, scriptSig, UInt32.ofNat nSequence⟩

theorem reads (txin : CTxIn) (bounded : txin.scriptSig.length ≤ MAX_SIZE) :
    Reads unserialize txin.serialize txin := by
  have nSequence := Reads.littleEndian 4 txin.nSequence.toNat (by simpa using txin.nSequence.toNat_lt)
  rw [serialize, List.append_assoc]
  refine txin.prevout.reads.bind ?_
  refine (readBytes_reads bounded).bind ?_
  simpa using nSequence.map fun n => (⟨txin.prevout, txin.scriptSig, UInt32.ofNat n⟩ : CTxIn)

theorem serialize_length (txin : CTxIn) : txin.serialize.length = txin.getSerializeSize := by
  simp [serialize, getSerializeSize, COutPoint.serialize_length, writeCompactSize_length]
  omega

end CTxIn

namespace CTxOut

def unserialize : Reader CTxOut := do
  let nValue ← Reader.littleEndian 8
  let scriptPubKey ← readBytes
  return ⟨(UInt64.ofNat nValue).toInt64, scriptPubKey⟩

theorem reads (txout : CTxOut) (bounded : txout.scriptPubKey.length ≤ MAX_SIZE) :
    Reads unserialize txout.serialize txout := by
  have nValue := Reads.littleEndian 8 txout.nValue.toUInt64.toNat
    (by simpa using txout.nValue.toUInt64.toNat_lt)
  refine nValue.bind ?_
  simpa using (readBytes_reads bounded).map fun scriptPubKey =>
    (⟨(UInt64.ofNat txout.nValue.toUInt64.toNat).toInt64, scriptPubKey⟩ : CTxOut)

theorem serialize_length (txout : CTxOut) : txout.serialize.length = txout.getSerializeSize := by
  simp [serialize, getSerializeSize, writeCompactSize_length]

end CTxOut

namespace CTransaction

/-- The comment, which only the newer transaction versions have. -/
def unserializeComment (nVersion : Int32) : Reader Bytes :=
  if TXCOMMENT_VERSION ≤ nVersion then readBytes else pure []

def unserialize : Reader CTransaction := do
  let nVersion ← Reader.littleEndian 4
  let vin ← readVector CTxIn.unserialize
  let vout ← readVector CTxOut.unserialize
  let nLockTime ← Reader.littleEndian 4
  let strTxComment ← unserializeComment (UInt32.ofNat nVersion).toInt32
  return ⟨(UInt32.ofNat nVersion).toInt32, vin, vout, UInt32.ofNat nLockTime, strTxComment⟩

/-- What is left of a transaction once it has been written and read back. -/
def onWire (tx : CTransaction) : CTransaction :=
  if TXCOMMENT_VERSION ≤ tx.nVersion then tx else { tx with strTxComment := [] }

@[simp] theorem onWire_nVersion (tx : CTransaction) : tx.onWire.nVersion = tx.nVersion := by
  unfold onWire
  split <;> rfl

@[simp] theorem onWire_vin (tx : CTransaction) : tx.onWire.vin = tx.vin := by
  unfold onWire
  split <;> rfl

@[simp] theorem onWire_vout (tx : CTransaction) : tx.onWire.vout = tx.vout := by
  unfold onWire
  split <;> rfl

@[simp] theorem onWire_nLockTime (tx : CTransaction) : tx.onWire.nLockTime = tx.nLockTime := by
  unfold onWire
  split <;> rfl

theorem sum_lengths {α : Type} {write : α → Bytes} {size : α → Nat} (values : List α)
    (each : ∀ value, (write value).length = size value) :
    (values.flatMap write).length = (values.map size).sum := by
  induction values with
  | nil => rfl
  | cons value rest ih => simp [each, ih]

theorem serialize_length (tx : CTransaction) : tx.serialize.length = tx.getSerializeSize := by
  simp only [serialize, getSerializeSize, List.length_append, littleEndian_length,
    writeCompactSize_length, sum_lengths tx.vin CTxIn.serialize_length,
    sum_lengths tx.vout CTxOut.serialize_length]
  split
  · simp [writeCompactSize_length]
  · rfl

/-- The vectors and strings of the transaction have sizes that ReadCompactSize lets through. -/
structure Sized (tx : CTransaction) : Prop where
  vin : tx.vin.length ≤ MAX_SIZE
  scriptSigs : ∀ txin ∈ tx.vin, txin.scriptSig.length ≤ MAX_SIZE
  vout : tx.vout.length ≤ MAX_SIZE
  scriptPubKeys : ∀ txout ∈ tx.vout, txout.scriptPubKey.length ≤ MAX_SIZE
  strTxComment : TXCOMMENT_VERSION ≤ tx.nVersion → tx.strTxComment.length ≤ MAX_SIZE

theorem sized_of_size {tx : CTransaction} (bounded : tx.getSerializeSize ≤ MAX_SIZE) : tx.Sized := by
  have inputs := List.length_le_sum_of_one_le (tx.vin.map CTxIn.getSerializeSize) (by
    intro size member
    obtain ⟨txin, _, rfl⟩ := List.mem_map.mp member
    simp only [CTxIn.getSerializeSize]
    omega)
  have outputs := List.length_le_sum_of_one_le (tx.vout.map CTxOut.getSerializeSize) (by
    intro size member
    obtain ⟨txout, _, rfl⟩ := List.mem_map.mp member
    simp only [CTxOut.getSerializeSize]
    omega)
  rw [List.length_map] at inputs outputs
  simp only [getSerializeSize] at bounded
  refine ⟨by omega, ?_, by omega, ?_, ?_⟩
  · intro txin member
    have part := List.le_sum_of_mem (List.mem_map_of_mem (f := CTxIn.getSerializeSize) member)
    simp only [CTxIn.getSerializeSize] at part bounded
    omega
  · intro txout member
    have part := List.le_sum_of_mem (List.mem_map_of_mem (f := CTxOut.getSerializeSize) member)
    simp only [CTxOut.getSerializeSize] at part bounded
    omega
  · intro written
    rw [if_pos written] at bounded
    omega

/-- Such a transaction survives the codec, but for a comment that its version
does not write. -/
theorem Sized.reads {tx : CTransaction} (sized : tx.Sized) : Reads unserialize tx.serialize tx.onWire := by
  have version : (UInt32.ofNat tx.nVersion.toUInt32.toNat).toInt32 = tx.nVersion := by simp
  have nVersion := Reads.littleEndian 4 tx.nVersion.toUInt32.toNat
    (by simpa using tx.nVersion.toUInt32.toNat_lt)
  have vin : Reads _ _ (tx.vin.map id) := readVector_reads tx.vin sized.vin fun txin member =>
    txin.reads (sized.scriptSigs txin member)
  have vout : Reads _ _ (tx.vout.map id) := readVector_reads tx.vout sized.vout fun txout member =>
    txout.reads (sized.scriptPubKeys txout member)
  rw [List.map_id] at vin vout
  have nLockTime := Reads.littleEndian 4 tx.nLockTime.toNat (by simpa using tx.nLockTime.toNat_lt)
  have strTxComment : Reads (unserializeComment tx.nVersion)
      (if TXCOMMENT_VERSION ≤ tx.nVersion then
        writeCompactSize tx.strTxComment.length ++ tx.strTxComment else [])
      tx.onWire.strTxComment := by
    unfold unserializeComment onWire
    split
    · exact readBytes_reads (sized.strTxComment ‹_›)
    · exact Reads.pure []
  rw [serialize]
  simp only [List.append_assoc]
  refine nVersion.bind ?_
  rw [version]
  rw [← List.append_assoc (writeCompactSize tx.vin.length)]
  refine vin.bind ?_
  rw [← List.append_assoc (writeCompactSize tx.vout.length)]
  refine vout.bind ?_
  refine nLockTime.bind ?_
  have whole := strTxComment.map fun strTxComment =>
    (⟨tx.nVersion, tx.vin, tx.vout, UInt32.ofNat tx.nLockTime.toNat, strTxComment⟩ : CTransaction)
  have result : (⟨tx.nVersion, tx.vin, tx.vout, UInt32.ofNat tx.nLockTime.toNat,
      tx.onWire.strTxComment⟩ : CTransaction) = tx.onWire := by
    unfold onWire
    split <;> simp
  rw [result] at whole
  exact whole

theorem reads (tx : CTransaction) (bounded : tx.getSerializeSize ≤ MAX_SIZE) :
    Reads unserialize tx.serialize tx.onWire :=
  (sized_of_size bounded).reads

theorem Checked.onWire_eq {tx other : CTransaction} (checked : tx.Checked)
    (same : tx.serialize = other.serialize) : tx.onWire = other.onWire := by
  have bounded : tx.getSerializeSize ≤ MAX_SIZE := Nat.le_trans checked.size_le (by decide)
  have otherBounded : other.getSerializeSize ≤ MAX_SIZE := by
    rw [← serialize_length, ← same, serialize_length]
    exact bounded
  have otherReads := other.reads otherBounded
  rw [← same] at otherReads
  exact (tx.reads bounded).unique otherReads

end CTransaction

end BitCrystal
