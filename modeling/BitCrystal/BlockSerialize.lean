import BitCrystal.Data.Decoding
import BitCrystal.SignatureHash
import BitCrystal.Disconnect

namespace BitCrystal

open Data

/-! # Blocks, transactions and undo data as bytes -/

/-! ## What the codecs of serialize.h return -/

theorem readSize_decodes : Decodes readSize fun nSize used => Shortest (writeCompactSize nSize) used := by
  have wider {width : Nat} (marker : UInt8) (canonical : ∀ nSize : Nat, nSize < 256 ^ width →
      Shortest (writeCompactSize nSize) (marker :: littleEndian width nSize)) :
      Decodes (Reader.littleEndian width) fun nSize more => Shortest (writeCompactSize nSize) ([marker] ++ more) := by
    refine (Decodes.littleEndian width).imp fun nSize used decoded => ?_
    obtain ⟨bounded, rfl⟩ := decoded
    exact canonical nSize bounded
  refine Decodes.byte.bind fun chSize used first => ?_
  subst first
  split_ifs with one two four
  · have small : chSize.toNat < 253 := UInt8.lt_iff_toNat_lt.mp one
    refine .pure ?_
    rw [writeCompactSize, if_pos small, UInt8.ofNat_toNat]
    exact .refl [chSize]
  · subst two
    refine wider 253 fun nSize bounded => ?_
    by_cases small : nSize < 253
    · exact .of_lt (by simp [writeCompactSize, small])
    · rw [writeCompactSize, if_neg small, if_pos (by omega)]
      exact .refl _
  · subst four
    refine wider 254 fun nSize bounded => ?_
    by_cases small : nSize ≤ 0xffff
    · refine .of_lt ?_
      rw [writeCompactSize_length, getSizeOfCompactSize]
      split_ifs <;> simp
    · rw [writeCompactSize, if_neg (by omega), if_neg small, if_pos (by omega)]
      exact .refl _
  · refine wider chSize fun nSize bounded => ?_
    have eight : chSize = 255 := by
      have limit := chSize.toNat_lt
      simp only [UInt8.lt_iff_toNat_lt, ← UInt8.toNat_inj, UInt8.reduceToNat] at one two four ⊢
      omega
    subst eight
    by_cases small : nSize ≤ 0xffffffff
    · refine .of_lt ?_
      rw [writeCompactSize_length, getSizeOfCompactSize]
      split_ifs <;> simp
    · rw [writeCompactSize, if_neg (by omega), if_neg (by omega), if_neg small]
      exact .refl _

theorem readCompactSize_decodes :
    Decodes readCompactSize fun nSize used => nSize ≤ MAX_SIZE ∧ Shortest (writeCompactSize nSize) used := by
  rw [readCompactSize_eq]
  refine Decodes.bind readSize_decodes fun nSize used shortest => ?_
  split
  · exact .fail
  · exact .pure ⟨by omega, by rwa [List.append_nil]⟩

theorem readBytes_decodes : Decodes readBytes fun bytes used =>
    bytes.length ≤ MAX_SIZE ∧ Shortest (writeCompactSize bytes.length ++ bytes) used := by
  refine Decodes.bind readCompactSize_decodes fun nSize first size => ?_
  refine (Decodes.take nSize).imp fun bytes second taken => ?_
  obtain ⟨rfl, rfl⟩ := taken
  exact ⟨size.1, size.2.append (.refl second)⟩

theorem readVector_decodes {α : Type} {reader : Reader α} {property : α → Prop} {write : α → Bytes}
    (each : Decodes reader fun value used => property value ∧ Shortest (write value) used) :
    Decodes (readVector reader) fun values used => values.length ≤ MAX_SIZE ∧ (∀ value ∈ values, property value) ∧
      Shortest (writeVector write values) used := by
  refine Decodes.bind readCompactSize_decodes fun nSize first size => ?_
  refine (each.repeated nSize).imp fun values second elements => ?_
  obtain ⟨rfl, all, shortest⟩ := elements
  exact ⟨size.1, all, size.2.append shortest⟩

/-! ## Transactions -/

theorem uint32_decodes {n : Nat} {used : Bytes} (decoded : n < 256 ^ 4 ∧ used = littleEndian 4 n) :
    used = littleEndian 4 (UInt32.ofNat n).toNat := by
  obtain ⟨bounded, rfl⟩ := decoded
  rw [UInt32.toNat_ofNat', Nat.mod_eq_of_lt (by simpa using bounded)]

theorem uint256_decodes {n : Nat} {used : Bytes} (decoded : n < 256 ^ 32 ∧ used = littleEndian 32 n) :
    used = littleEndian 32 (BitVec.ofNat 256 n).toNat := by
  obtain ⟨bounded, rfl⟩ := decoded
  rw [BitVec.toNat_ofNat, Nat.mod_eq_of_lt (by simpa using bounded)]

theorem COutPoint.decodes :
    Decodes COutPoint.unserialize fun outpoint used => used = outpoint.serialize := by
  refine (Decodes.littleEndian 32).bind fun hash first hashRead => ?_
  refine (Decodes.littleEndian 4).bind fun n second nRead => ?_
  refine .pure ?_
  rw [COutPoint.serialize, uint256_decodes hashRead, uint32_decodes nRead, List.append_nil]

theorem CTxIn.decodes : Decodes CTxIn.unserialize fun txin used =>
    txin.scriptSig.length ≤ MAX_SIZE ∧ Shortest txin.serialize used := by
  refine Decodes.bind COutPoint.decodes fun prevout first outpoint => ?_
  subst outpoint
  refine Decodes.bind readBytes_decodes fun scriptSig second script => ?_
  refine (Decodes.littleEndian 4).bind fun nSequence third sequence => ?_
  refine .pure ⟨script.1, ?_⟩
  rw [CTxIn.serialize, List.append_assoc, List.append_nil, uint32_decodes sequence]
  exact (Shortest.refl _).append (script.2.append (.refl _))

theorem CTxOut.decodes : Decodes CTxOut.unserialize fun txout used =>
    txout.scriptPubKey.length ≤ MAX_SIZE ∧ Shortest txout.serialize used := by
  refine (Decodes.littleEndian 8).bind fun nValue first amount => ?_
  obtain ⟨bounded, rfl⟩ := amount
  refine Decodes.bind readBytes_decodes fun scriptPubKey second script => ?_
  refine .pure ⟨script.1, ?_⟩
  have value : nValue % 2 ^ 64 = nValue := Nat.mod_eq_of_lt (by simpa using bounded)
  rw [CTxOut.serialize, List.append_nil, UInt64.toUInt64_toInt64, UInt64.toNat_ofNat', value]
  exact (Shortest.refl _).append script.2

namespace CTransaction

/-- What is read is a transaction that can be written, and its own encoding is
the shortest one. -/
theorem decodes : Decodes unserialize fun tx used =>
    tx.Sized ∧ tx.onWire = tx ∧ Shortest tx.serialize used := by
  refine (Decodes.littleEndian 4).bind fun nVersion first version => ?_
  refine (readVector_decodes CTxIn.decodes).bind fun vin second inputs => ?_
  refine (readVector_decodes CTxOut.decodes).bind fun vout third outputs => ?_
  refine (Decodes.littleEndian 4).bind fun nLockTime fourth lockTime => ?_
  rw [uint32_decodes version, uint32_decodes lockTime]
  have front := (Shortest.refl (littleEndian 4 (UInt32.ofNat nVersion).toNat)).append
    (inputs.2.2.append (outputs.2.2.append (.refl (littleEndian 4 (UInt32.ofNat nLockTime).toNat))))
  unfold unserializeComment
  split
  · rename_i written
    refine Decodes.bind readBytes_decodes fun strTxComment fifth comment => ?_
    refine .pure ⟨⟨inputs.1, inputs.2.1, outputs.1, outputs.2.1, fun _ => comment.1⟩, if_pos written, ?_⟩
    have whole := front.append comment.2
    simpa only [serialize, writeVector, UInt32.toUInt32_toInt32, if_pos written, List.append_assoc,
      List.append_nil] using whole
  · rename_i old
    have unread : Decodes (pure []) fun (comment : Bytes) used => comment = [] ∧ used = [] := .pure ⟨rfl, rfl⟩
    refine unread.bind ?_
    rintro _ _ ⟨rfl, rfl⟩
    refine .pure ⟨⟨inputs.1, inputs.2.1, outputs.1, outputs.2.1, fun written => absurd written old⟩, if_neg old, ?_⟩
    simpa only [serialize, writeVector, UInt32.toUInt32_toInt32, if_neg old, List.append_assoc,
      List.append_nil] using front

def Uncommented (tx : CTransaction) : Prop :=
  ¬ TXCOMMENT_VERSION ≤ tx.nVersion → tx.strTxComment = []

theorem onWire_eq_self_iff {tx : CTransaction} : tx.onWire = tx ↔ tx.Uncommented := by
  unfold onWire Uncommented
  split
  · rename_i written
    exact iff_of_true rfl fun old => absurd written old
  · rename_i old
    refine ⟨fun same _ => ?_, fun empty => ?_⟩
    · rw [← same]
    · cases tx
      simp_all

theorem reads_iff {tx : CTransaction} :
    Reads unserialize tx.serialize tx ↔ tx.Sized ∧ tx.Uncommented := by
  constructor
  · intro reads
    obtain ⟨sized, same, _⟩ := reads.decodes decodes
    exact ⟨sized, onWire_eq_self_iff.mp same⟩
  · rintro ⟨sized, uncommented⟩
    have reads := sized.reads
    rwa [onWire_eq_self_iff.mpr uncommented] at reads

end CTransaction

/-! ## Blocks -/

namespace CBlockHeader

def unserialize : Reader CBlockHeader := do
  let nVersion ← Reader.littleEndian 4
  let hashPrevBlock ← Reader.littleEndian 32
  let hashMerkleRoot ← Reader.littleEndian 32
  let nTime ← Reader.littleEndian 4
  let nBits ← Reader.littleEndian 4
  let nNonce ← Reader.littleEndian 4
  return ⟨(UInt32.ofNat nVersion).toInt32, BitVec.ofNat 256 hashPrevBlock, BitVec.ofNat 256 hashMerkleRoot,
    UInt32.ofNat nTime, UInt32.ofNat nBits, UInt32.ofNat nNonce⟩

theorem reads (header : CBlockHeader) : Reads unserialize header.serialize header := by
  have word (n : UInt32) : Reads (Reader.littleEndian 4) (littleEndian 4 n.toNat) n.toNat :=
    Reads.littleEndian 4 n.toNat (by simpa using n.toNat_lt)
  have hash (h : UInt256) : Reads (Reader.littleEndian 32) (littleEndian 32 h.toNat) h.toNat :=
    Reads.littleEndian 32 h.toNat (by simpa using h.isLt)
  simp only [serialize, List.append_assoc]
  refine (word header.nVersion.toUInt32).bind ?_
  refine (hash header.hashPrevBlock).bind ?_
  refine (hash header.hashMerkleRoot).bind ?_
  refine (word header.nTime).bind ?_
  refine (word header.nBits).bind ?_
  have whole := (word header.nNonce).map fun nNonce =>
    (⟨(UInt32.ofNat header.nVersion.toUInt32.toNat).toInt32, BitVec.ofNat 256 header.hashPrevBlock.toNat,
      BitVec.ofNat 256 header.hashMerkleRoot.toNat, UInt32.ofNat header.nTime.toNat,
      UInt32.ofNat header.nBits.toNat, UInt32.ofNat nNonce⟩ : CBlockHeader)
  simpa using whole

theorem decodes : Decodes unserialize fun header used => used = header.serialize := by
  refine (Decodes.littleEndian 4).bind fun nVersion first version => ?_
  refine (Decodes.littleEndian 32).bind fun hashPrevBlock second previous => ?_
  refine (Decodes.littleEndian 32).bind fun hashMerkleRoot third root => ?_
  refine (Decodes.littleEndian 4).bind fun nTime fourth time => ?_
  refine (Decodes.littleEndian 4).bind fun nBits fifth bits => ?_
  refine (Decodes.littleEndian 4).bind fun nNonce sixth nonce => ?_
  refine .pure ?_
  rw [uint32_decodes version, uint256_decodes previous, uint256_decodes root, uint32_decodes time,
    uint32_decodes bits, uint32_decodes nonce]
  simp only [serialize, UInt32.toUInt32_toInt32, List.append_assoc, List.append_nil]

theorem serialize_length (header : CBlockHeader) : header.serialize.length = 80 := by
  simp [serialize]

end CBlockHeader

namespace CBlock

def serialize (block : CBlock) : Bytes :=
  block.toCBlockHeader.serialize ++ writeVector CTransaction.serialize block.vtx

def unserialize : Reader CBlock := do
  let header ← CBlockHeader.unserialize
  let vtx ← readVector CTransaction.unserialize
  return { header with vtx }

theorem serialize_length (block : CBlock) : block.serialize.length = block.getSerializeSize := by
  simp only [serialize, writeVector, getSerializeSize, List.length_append, CBlockHeader.serialize_length,
    writeCompactSize_length, CTransaction.sum_lengths block.vtx CTransaction.serialize_length]

/-- The transactions of the block, and their number, survive the codec. -/
structure Sized (block : CBlock) : Prop where
  vtx : block.vtx.length ≤ MAX_SIZE
  txs : ∀ tx ∈ block.vtx, tx.Sized ∧ tx.Uncommented

theorem decodes : Decodes unserialize fun block used => block.Sized ∧ Shortest block.serialize used := by
  refine Decodes.bind CBlockHeader.decodes fun header first front => ?_
  subst front
  have each : Decodes CTransaction.unserialize fun tx used =>
      (tx.Sized ∧ tx.Uncommented) ∧ Shortest tx.serialize used :=
    Decodes.imp CTransaction.decodes fun tx used decoded =>
      ⟨⟨decoded.1, CTransaction.onWire_eq_self_iff.mp decoded.2.1⟩, decoded.2.2⟩
  refine (readVector_decodes each).bind fun vtx second txs => ?_
  refine .pure ⟨⟨txs.1, txs.2.1⟩, ?_⟩
  rw [List.append_nil]
  exact (Shortest.refl header.serialize).append txs.2.2

theorem reads_iff {block : CBlock} : Reads unserialize block.serialize block ↔ block.Sized := by
  constructor
  · intro reads
    exact (reads.decodes decodes).1
  · intro sized
    refine block.toCBlockHeader.reads.bind ?_
    have vtx : Reads _ _ (block.vtx.map id) := readVector_reads block.vtx sized.vtx fun tx member =>
      CTransaction.reads_iff.mpr (sized.txs tx member)
    rw [List.map_id] at vtx
    exact vtx.map fun vtx => { block with vtx }

end CBlock

/-! ## Undo data -/

namespace CTxInUndo

def getSerializeSize [PubKeys] (undo : CTxInUndo) : Nat :=
  getSizeOfVarInt 32 (undo.nCode : Nat) +
    ((if undo.nHeight ≠ 0 then getSizeOfVarInt 32 undo.nVersion.toInt else 0) +
      CTxOutCompressor.getSerializeSize undo.txout)

theorem serialize_length [PubKeys] (undo : CTxInUndo) : undo.serialize.length = undo.getSerializeSize := by
  simp only [serialize, getSerializeSize, List.length_append, writeVarInt_length, CTxOutCompressor.serialize_length]
  split
  · rw [writeVarInt_length]
  · rfl

/-- Undo information that comes back as it is: its version is not negative and
its amount is one that CompressAmount keeps. -/
structure Exact (undo : CTxInUndo) : Prop extends undo.Sized where
  nonneg : 0 ≤ undo.nVersion.toInt
  amount : CTxOutCompressor.restoredAmount undo.txout.nValue = undo.txout.nValue

theorem Exact.reads [PubKeys] {undo : CTxInUndo} (exact : undo.Exact) :
    Reads unserialize undo.serialize undo := by
  have reads := exact.toSized.reads
  rwa [onDisk, diskVersion_eq_self_iff.mpr exact.nonneg, CTxOutCompressor.restored, exact.amount] at reads

end CTxInUndo

def CTxUndo.getSerializeSize [PubKeys] (txundo : CTxUndo) : Nat :=
  getSizeOfCompactSize txundo.length + (txundo.map CTxInUndo.getSerializeSize).sum

namespace CBlockUndo

def getSerializeSize [PubKeys] (blockundo : CBlockUndo) : Nat :=
  getSizeOfCompactSize blockundo.length + (blockundo.map CTxUndo.getSerializeSize).sum

theorem serialize_length [PubKeys] (blockundo : CBlockUndo) :
    blockundo.serialize.length = blockundo.getSerializeSize := by
  have inner (txundo : CTxUndo) : txundo.serialize.length = txundo.getSerializeSize := by
    simp only [CTxUndo.serialize, CTxUndo.getSerializeSize, writeVector, List.length_append,
      writeCompactSize_length, CTransaction.sum_lengths txundo CTxInUndo.serialize_length]
  simp only [serialize, getSerializeSize, writeVector, List.length_append, writeCompactSize_length,
    CTransaction.sum_lengths blockundo inner]

structure Exact (blockundo : CBlockUndo) : Prop where
  size : blockundo.length ≤ MAX_SIZE
  sizes : ∀ txundo ∈ blockundo, txundo.length ≤ MAX_SIZE
  undos : ∀ txundo ∈ blockundo, ∀ undo ∈ txundo, undo.Exact

theorem Exact.reads [PubKeys] {blockundo : CBlockUndo} (exact : blockundo.Exact) :
    Reads unserialize blockundo.serialize blockundo := by
  have inner (txundo : CTxUndo) (member : txundo ∈ blockundo) :
      Reads CTxUndo.unserialize txundo.serialize (id txundo) := by
    have elements : Reads _ _ (txundo.map id) := readVector_reads txundo (exact.sizes txundo member)
      fun undo inner => (exact.undos txundo member undo inner).reads
    rw [List.map_id] at elements
    exact elements
  have whole : Reads _ _ (blockundo.map id) := readVector_reads blockundo exact.size inner
  rw [List.map_id] at whole
  exact whole

end CBlockUndo

/-! ## The round trips together -/

/-- Transactions and blocks come back exactly when ReadCompactSize lets their
sizes through; the bytes of a transaction determine its written fields. -/
theorem encodings_round_trip [PubKeys] :
    (∀ tx : CTransaction, tx.serialize.length = tx.getSerializeSize ∧
      (tx.Uncommented → (Reads CTransaction.unserialize tx.serialize tx ↔ tx.Sized))) ∧
    (∀ block : CBlock, block.serialize.length = block.getSerializeSize ∧
      (Reads CBlock.unserialize block.serialize block ↔ block.Sized)) ∧
    (∀ blockundo : CBlockUndo, blockundo.serialize.length = blockundo.getSerializeSize ∧
      (blockundo.Exact → Reads CBlockUndo.unserialize blockundo.serialize blockundo)) ∧
    ∀ tx other : CTransaction, tx.Counted → other.Counted → tx.serialize = other.serialize →
      tx.nVersion = other.nVersion ∧ tx.vin = other.vin ∧ tx.vout = other.vout ∧
        tx.nLockTime = other.nLockTime ∧
          (CTransaction.TXCOMMENT_VERSION ≤ tx.nVersion → tx.strTxComment = other.strTxComment) := by
  refine ⟨fun tx => ⟨tx.serialize_length, fun uncommented => ?_⟩,
    fun block => ⟨block.serialize_length, CBlock.reads_iff⟩,
    fun blockundo => ⟨blockundo.serialize_length, CBlockUndo.Exact.reads⟩, ?_⟩
  · rw [CTransaction.reads_iff]
    exact and_iff_left uncommented
  · intro tx other counted otherCounted same
    have whole : tx.serialize ++ [] = other.serialize ++ [] := congrArg (· ++ []) same
    exact CTransaction.onWire_eq_iff.mp (CTransaction.onWire_eq_of_serialize counted otherCounted whole).1

namespace Sample

/-- A transaction with a comment of this many bytes. -/
def commented (size : Nat) : CTransaction :=
  ⟨2, [⟨COutPoint.null, [0x51], 0⟩], [⟨500000, [0x51]⟩], 0, List.replicate size 0x21⟩

/-- Its version does not write the comment. -/
def silent (size : Nat) : CTransaction :=
  { commented size with nVersion := 1 }

/-- The undo information of a spent output. -/
def spentOutput (nHeight : Int) : CBlockUndo :=
  [[⟨⟨500000, [0x51]⟩, true, nHeight, 1⟩]]

theorem spentOutput_exact : (spentOutput 7).Exact := by
  refine ⟨by decide, by decide, ?_⟩
  intro txundo member undo inside
  rw [List.mem_singleton.mp member, List.mem_singleton] at inside
  subst inside
  exact ⟨⟨by decide, by decide, by decide⟩, by decide, by decide⟩

end Sample

open Sample in
theorem encodings_round_trip_sample :
    (Reads CTransaction.unserialize (commented 3).serialize (commented 3) ↔ (commented 3).Sized) ∧
      Reads CBlockUndo.unserialize (spentOutput 7).serialize (spentOutput 7) ∧
      (silent 1).vin = (silent 2).vin := by
  obtain ⟨transactions, _, undos, injective⟩ := encodings_round_trip
  have first : (silent 1).Counted := ⟨by decide, by decide, by decide, by decide, by decide⟩
  have second : (silent 2).Counted := ⟨by decide, by decide, by decide, by decide, by decide⟩
  have same : (silent 1).serialize = (silent 2).serialize := by decide
  exact ⟨(transactions (commented 3)).2 fun old => absurd (by decide) old,
    (undos (spentOutput 7)).2 spentOutput_exact, (injective _ _ first second same).2.1⟩

open Sample in
/-- A comment that ReadCompactSize refuses, and undo information without a height
whose version is not written. -/
theorem encodings_lost : (commented (MAX_SIZE + 1)).Uncommented ∧
    ¬ Reads CTransaction.unserialize (commented (MAX_SIZE + 1)).serialize (commented (MAX_SIZE + 1)) ∧
    ¬ Reads CBlockUndo.unserialize (spentOutput 0).serialize (spentOutput 0) := by
  have newer : CTransaction.TXCOMMENT_VERSION ≤ (commented (MAX_SIZE + 1)).nVersion := by decide
  refine ⟨fun old => absurd newer old, fun reads => ?_, fun reads => ?_⟩
  · have sized := (CTransaction.reads_iff.mp reads).1.strTxComment newer
    simp [commented] at sized
  · have different : (CBlockUndo.unserialize (spentOutput 0).serialize).map Prod.fst ≠ some (spentOutput 0) := by
      decide
    rw [reads.whole] at different
    exact different rfl

end BitCrystal
