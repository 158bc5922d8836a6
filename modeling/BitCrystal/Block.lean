import BitCrystal.Transaction

namespace BitCrystal

open Data

/-! # Blocks and their context-free checks -/

structure CBlockHeader where
  nVersion : Int32
  hashPrevBlock : UInt256
  hashMerkleRoot : UInt256
  nTime : UInt32
  nBits : UInt32
  nNonce : UInt32
deriving DecidableEq

namespace CBlockHeader

def serialize (header : CBlockHeader) : Bytes :=
  littleEndian 4 header.nVersion.toUInt32.toNat ++
  littleEndian 32 header.hashPrevBlock.toNat ++
  littleEndian 32 header.hashMerkleRoot.toNat ++
  littleEndian 4 header.nTime.toNat ++
  littleEndian 4 header.nBits.toNat ++
  littleEndian 4 header.nNonce.toNat

def getHash [Hashing] (header : CBlockHeader) : UInt256 :=
  Hashing.Hash9 header.serialize

def getBlockTime (header : CBlockHeader) : Int :=
  header.nTime.toNat

end CBlockHeader

structure CBlock extends CBlockHeader where
  vtx : List CTransaction
deriving DecidableEq

/-! ## Proof of work -/

/-- CBigNum::SetCompact. -/
def setCompact (nCompact : UInt32) : Int :=
  let nSize := nCompact.toNat >>> 24
  let nWord := nCompact.toNat &&& 0x007fffff
  let magnitude : Nat :=
    if nSize ≤ 3 then nWord >>> (8 * (3 - nSize)) else nWord <<< (8 * (nSize - 3))
  if nCompact.toNat &&& 0x00800000 ≠ 0 then -magnitude else magnitude

def bnProofOfWorkLimit : Int := 2 ^ 236 - 1

/-- CheckProofOfWork; within the limit `getuint256` keeps the whole target. -/
def checkProofOfWork (hash : UInt256) (nBits : UInt32) : Bool :=
  let bnTarget := setCompact nBits
  0 < bnTarget && bnTarget ≤ bnProofOfWorkLimit && (hash.toNat : Int) ≤ bnTarget

/-- CBlockIndex::GetBlockWork and `getuint256` of it. -/
def getBlockWork (nBits : UInt32) : UInt256 :=
  let bnTarget := setCompact nBits
  if bnTarget ≤ 0 then 0 else BitVec.ofInt 256 (2 ^ 256 / (bnTarget + 1))

private theorem forM_checked {txs : List CTransaction} {done : Unit}
    (run : forM txs CTransaction.checkTransaction = .ok done) : ∀ tx ∈ txs, tx.Checked := by
  induction txs with
  | nil => simp
  | cons tx rest ih =>
      rw [List.forM_cons, bind_eq_ok] at run
      obtain ⟨first, passed, others⟩ := run
      intro other member
      rcases List.mem_cons.mp member with rfl | member
      · exact CTransaction.Checked.of_checkTransaction passed
      · exact ih others other member

/-! ## The Merkle tree -/

section

variable [Hashing]

def hashPair (left right : UInt256) : UInt256 :=
  Hashing.Hash (littleEndian 32 left.toNat ++ littleEndian 32 right.toNat)

def merkleLevel : List UInt256 → List UInt256
  | [] => []
  | [last] => [hashPair last last]
  | left :: right :: rest => hashPair left right :: merkleLevel rest

/-- All levels, one after the other, in at most `room` turns. -/
def merkleLevels : Nat → List UInt256 → List UInt256
  | 0, level => level
  | room + 1, level =>
      if level.length ≤ 1 then level else level ++ merkleLevels room (merkleLevel level)

/-- `vMerkleTree` as BuildMerkleTree leaves it. -/
def CBlock.vMerkleTree (block : CBlock) : List UInt256 :=
  merkleLevels block.vtx.length (block.vtx.map CTransaction.getHash)

def CBlock.buildMerkleTree (block : CBlock) : UInt256 :=
  block.vMerkleTree.getLast?.getD 0

/-- GetTxHash reads the cached tree, whose first entries are the transaction hashes. -/
def CBlock.getTxHash (block : CBlock) (nIndex : Nat) : Option UInt256 :=
  if nIndex < block.vtx.length then block.vMerkleTree[nIndex]? else none

theorem merkleLevels_prefix (room : Nat) (level : List UInt256) :
    level <+: merkleLevels room level := by
  cases room with
  | zero => exact List.prefix_refl level
  | succ room =>
      unfold merkleLevels
      split
      · exact List.prefix_refl level
      · exact List.prefix_append level _

theorem CBlock.getTxHash_eq (block : CBlock) (nIndex : Nat) :
    block.getTxHash nIndex = block.vtx[nIndex]?.map CTransaction.getHash := by
  unfold getTxHash
  by_cases within : nIndex < block.vtx.length
  · obtain ⟨rest, split⟩ :=
      merkleLevels_prefix block.vtx.length (block.vtx.map CTransaction.getHash)
    rw [if_pos within, vMerkleTree, ← split, List.getElem?_append_left (by simpa using within),
      List.getElem?_map]
  · rw [if_neg within, List.getElem?_eq_none (by omega), Option.map_none]

/-! ## CheckBlock -/

def CBlock.getHash (block : CBlock) : UInt256 :=
  block.toCBlockHeader.getHash

def CBlock.getSerializeSize (block : CBlock) : Nat :=
  80 + (getSizeOfCompactSize block.vtx.length + (block.vtx.map CTransaction.getSerializeSize).sum)

def CBlock.hasCoinBaseFirst (block : CBlock) : Bool :=
  match block.vtx with
  | coinbase :: _ => coinbase.isCoinBase
  | [] => false

def CBlock.checkBlock (settings : Settings) (block : CBlock) (fCheckPOW fCheckMerkleRoot : Bool) :
    Except Failure Unit := do
  require (block.vtx ≠ [] ∧ block.vtx.length ≤ MAX_BLOCK_SIZE ∧
      block.getSerializeSize ≤ MAX_BLOCK_SIZE)
    (.dos 100 "CheckBlock() : size limits failed")
  require (fCheckPOW → checkProofOfWork block.getHash block.nBits)
    (.dos 50 "CheckBlock() : proof of work failed")
  require (block.getBlockTime ≤ settings.adjustedTime + 1 * 60 * 60)
    (.dos 0 "CheckBlock() : block timestamp too far in the future")
  require block.hasCoinBaseFirst
    (.dos 100 "CheckBlock() : first tx is not coinbase")
  require (block.vtx.tail.all fun tx => !tx.isCoinBase)
    (.dos 100 "CheckBlock() : more than one coinbase")
  forM block.vtx CTransaction.checkTransaction
  -- `uniqueTx.size() != vtx.size()`
  require (block.vtx.map CTransaction.getHash).Nodup
    (.dos 100 "CheckBlock() : duplicate transaction")
  require ((block.vtx.map CTransaction.getLegacySigOpCount).sum ≤ MAX_BLOCK_SIGOPS)
    (.dos 100 "CheckBlock() : out-of-bounds SigOpCount")
  require (fCheckMerkleRoot → block.hashMerkleRoot = block.buildMerkleTree)
    (.dos 100 "CheckBlock() : hashMerkleRoot mismatch")

/-- The properties of a block that has passed CheckBlock. -/
structure CBlock.Checked (block : CBlock) : Prop where
  vtx_ne_nil : block.vtx ≠ []
  count_le : block.vtx.length ≤ MAX_BLOCK_SIZE
  size_le : block.getSerializeSize ≤ MAX_BLOCK_SIZE
  coinBaseFirst : block.hasCoinBaseFirst = true
  coinBaseOnly : ∀ tx ∈ block.vtx.tail, tx.isCoinBase = false
  transactions : ∀ tx ∈ block.vtx, tx.Checked
  hashes_nodup : (block.vtx.map CTransaction.getHash).Nodup

theorem CBlock.Checked.of_checkBlock {settings : Settings} {block : CBlock}
    {fCheckPOW fCheckMerkleRoot : Bool} {done : Unit}
    (run : block.checkBlock settings fCheckPOW fCheckMerkleRoot = .ok done) : block.Checked := by
  simp only [checkBlock, bind_eq_ok, require_eq_ok, exists_const] at run
  obtain ⟨⟨nonempty, count, size⟩, _, _, coinBase, others, _, transactions, unique, _, _⟩ := run
  refine ⟨nonempty, count, size, coinBase, ?_, forM_checked transactions, unique⟩
  intro tx member
  simpa using List.all_eq_true.mp others tx member

end

/-! ## The block index -/

structure CDiskBlockPos where
  nFile : Int32
  nPos : UInt32
deriving DecidableEq

def BLOCK_VALID_TRANSACTIONS : UInt32 := 3
def BLOCK_VALID_SCRIPTS : UInt32 := 5
def BLOCK_VALID_MASK : UInt32 := 7
def BLOCK_HAVE_DATA : UInt32 := 8
def BLOCK_HAVE_UNDO : UInt32 := 16
def BLOCK_HAVE_MASK : UInt32 := 24
def BLOCK_FAILED_VALID : UInt32 := 32
def BLOCK_FAILED_CHILD : UInt32 := 64
def BLOCK_FAILED_MASK : UInt32 := 96

/-- An entry of the block tree. A pointer to an entry is the hash under which
`mapBlockIndex` owns it, so `phashBlock` is null exactly for the dummy entry of
CreateNewBlock. -/
structure CBlockIndex where
  phashBlock : Option UInt256
  pprev : Option UInt256
  pnext : Option UInt256
  nHeight : Int
  nFile : Int32
  nDataPos : UInt32
  nUndoPos : UInt32
  nChainWork : UInt256
  nTx : UInt32
  nChainTx : UInt32
  nStatus : UInt32
  nVersion : Int32
  hashMerkleRoot : UInt256
  nTime : UInt32
  nBits : UInt32
  nNonce : UInt32
deriving DecidableEq

abbrev BlockMap := UInt256 → Option CBlockIndex

namespace CBlockIndex

/-- `CBlockIndex(block)`. -/
def ofHeader (header : CBlockHeader) : CBlockIndex where
  phashBlock := none
  pprev := none
  pnext := none
  nHeight := 0
  nFile := 0
  nDataPos := 0
  nUndoPos := 0
  nChainWork := 0
  nTx := 0
  nChainTx := 0
  nStatus := 0
  nVersion := header.nVersion
  hashMerkleRoot := header.hashMerkleRoot
  nTime := header.nTime
  nBits := header.nBits
  nNonce := header.nNonce

/-- GetBlockPos; `none` is the null position. -/
def getBlockPos (pindex : CBlockIndex) : Option CDiskBlockPos :=
  if pindex.nStatus &&& BLOCK_HAVE_DATA ≠ 0 then some ⟨pindex.nFile, pindex.nDataPos⟩ else none

def getUndoPos (pindex : CBlockIndex) : Option CDiskBlockPos :=
  if pindex.nStatus &&& BLOCK_HAVE_UNDO ≠ 0 then some ⟨pindex.nFile, pindex.nUndoPos⟩ else none

end CBlockIndex

end BitCrystal
