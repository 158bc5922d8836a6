import BitCrystal.CoinsSerialize

namespace BitCrystal

open Data

/-! # Connecting and disconnecting blocks -/

def hashGenesisBlock : UInt256 :=
  0x00000acca43db71292e222b3b93bf71e765484276ff373feff2ecf92cbfb5936#256

/-! ## The block reward -/

def nGenesisBlockRewardCoin : Int := 10000000 * COIN
def nBlockRewardStartCoin : Int := 10000000 * COIN
def nBlockRewardMinimumCoin : Int := 5 * COIN
def nBlockRewardLastCoin : Int := 9766 * COIN
def nBlockRewardFreedomForAllLastCoin : Int := 100 * COIN

/-- `value >> count` on an int64. Counts outside 0..63 are undefined in C++; the
x86 instruction uses the low six bits. -/
def shiftRight64 (value count : Int) : Int :=
  value >>> (count % 64).toNat

def getBlockValue (nHeight nFees : Int) : Except Failure Int :=
  if nHeight = 0 then .ok nGenesisBlockRewardCoin
  else if nHeight < 100 then .ok (shiftRight64 nBlockRewardStartCoin (nHeight.tdiv 10))
  else if nHeight < 30000 ∨ nHeight.tmod 30000 ≠ 0 then
    let nSubsidy := shiftRight64 nBlockRewardLastCoin (nHeight.tdiv 1440)
    addInt64 (if nSubsidy < nBlockRewardMinimumCoin then nBlockRewardMinimumCoin else nSubsidy) nFees
  else
    addInt64 nBlockRewardFreedomForAllLastCoin nFees

/-! ## ConnectBlock -/

namespace CoinsView

/-- `view.HaveCoins(hash) && !view.GetCoins(hash).IsPruned()`. -/
def hasUnspent (view : CoinsView) (txid : UInt256) : Bool :=
  (view.coins txid).any (!·.isPruned)

end CoinsView

/-- The local variables of ConnectBlock that its loop over the transactions changes. -/
structure ConnectState where
  view : CoinsView
  nFees : Int
  nSigOps : Nat
  vtxundo : CBlockUndo
  vChecks : List CScriptCheck

def nBIP16SwitchTime : Nat := 1333238400

/-- Checkpoints::GetTotalBlocksEstimate; its return of the last checkpoint is commented out. -/
def getTotalBlocksEstimate : Int := 0

namespace CBlockIndex

def fStrictPayToScriptHash (pindex : CBlockIndex) : Bool :=
  nBIP16SwitchTime ≤ pindex.nTime.toNat

/-- The script verification flags of ConnectBlock. -/
def scriptFlags (pindex : CBlockIndex) : UInt32 :=
  SCRIPT_VERIFY_NOCACHE ||| if pindex.fStrictPayToScriptHash then SCRIPT_VERIFY_P2SH else SCRIPT_VERIFY_NONE

def fScriptChecks (pindex : CBlockIndex) : Bool :=
  getTotalBlocksEstimate ≤ pindex.nHeight

end CBlockIndex

section

variable [ScriptMachine]

/-- What ConnectBlock does for a transaction that is not a coinbase before it
updates the coins. -/
def connectInputs (settings : Settings) (mapBlockIndex : BlockMap) (pindex : CBlockIndex)
    (s : ConnectState) (tx : CTransaction) : Except Failure ConnectState := do
  require (tx.haveInputs s.view) (.dos 100 "ConnectBlock() : inputs missing/spent")
  let nP2SHSigOps ← (if pindex.fStrictPayToScriptHash then tx.getP2SHSigOpCount s.view else .ok 0)
  require (s.nSigOps + nP2SHSigOps ≤ MAX_BLOCK_SIGOPS) (.dos 100 "ConnectBlock() : too many sigops")
  let nValueIn ← tx.getValueIn s.view
  let nValueOut ← tx.getValueOut
  let nTxFee ← subInt64 nValueIn nValueOut
  let nFees ← addInt64 s.nFees nTxFee
  let vChecks ← tx.checkInputs mapBlockIndex s.view pindex.fScriptChecks pindex.scriptFlags
    (settings.nScriptCheckThreads ≠ 0)
  return { s with nSigOps := s.nSigOps + nP2SHSigOps, nFees, vChecks := s.vChecks ++ vChecks }

variable [Hashing]

/-- One turn of the loop of ConnectBlock; the hash is GetTxHash(i). -/
def connectTransaction (settings : Settings) (mapBlockIndex : BlockMap) (pindex : CBlockIndex)
    (s : ConnectState) (tx : CTransaction) : Except Failure ConnectState := do
  let s := { s with nSigOps := s.nSigOps + tx.getLegacySigOpCount }
  require (s.nSigOps ≤ MAX_BLOCK_SIGOPS) (.dos 100 "ConnectBlock() : too many sigops")
  let s ← (if tx.isCoinBase then .ok s else connectInputs settings mapBlockIndex pindex s tx)
  let (view, txundo) ← tx.updateCoins s.view pindex.nHeight tx.getHash
  return { s with view, vtxundo := if tx.isCoinBase then s.vtxundo else s.vtxundo ++ [txundo] }

namespace CBlock

/-- The part of ConnectBlock from the duplicate check to the verdict of the script checks. -/
def connectTransactions (settings : Settings) (mapBlockIndex : BlockMap) (block : CBlock)
    (pindex : CBlockIndex) (view : CoinsView) : Except Failure ConnectState := do
  -- fEnforceBIP30 is `!pindex->phashBlock`
  require (pindex.phashBlock = none → block.vtx.all fun tx => !view.hasUnspent tx.getHash)
    (.dos 100 "ConnectBlock() : tried to overwrite transaction")
  let s ← block.vtx.foldlM (connectTransaction settings mapBlockIndex pindex) ⟨view, 0, 0, [], []⟩
  let coinbase ← expect block.vtx.head? (.undefined "ConnectBlock")
  let nValueOut ← coinbase.getValueOut
  let nBlockValue ← getBlockValue pindex.nHeight s.nFees
  require (nValueOut ≤ nBlockValue) (.dos 100 "ConnectBlock() : coinbase pays too much")
  require (s.vChecks.all CScriptCheck.run) (.dos 100 "")
  return s

/-- ConnectBlock up to its writes to the disk, which follow unless `fJustCheck`:
the view it leaves and the undo data it produces. The genesis block has none. -/
def connectBlock (settings : Settings) (mapBlockIndex : BlockMap) (block : CBlock)
    (pindex : CBlockIndex) (view : CoinsView) (fJustCheck : Bool) :
    Except Failure (CoinsView × Option CBlockUndo) := do
  block.checkBlock settings (!fJustCheck) (!fJustCheck)
  require (pindex.pprev = view.best) (.undefined "ConnectBlock")
  if block.getHash = hashGenesisBlock then
    return (view.setBestBlock pindex.phashBlock, none)
  else
    let s ← block.connectTransactions settings mapBlockIndex pindex view
    return (if fJustCheck then s.view else s.view.setBestBlock pindex.phashBlock, some s.vtxundo)

end CBlock

end

/-- The block index entry after ConnectBlock has written undo data at `nPos`. -/
def CBlockIndex.recordUndo (pindex : CBlockIndex) (nPos : UInt32) : CBlockIndex :=
  { pindex with
    nUndoPos := nPos
    nStatus := ((pindex.nStatus ||| BLOCK_HAVE_UNDO) &&& ~~~BLOCK_VALID_MASK) ||| BLOCK_VALID_SCRIPTS }

/-! ## DisconnectBlock -/

/-- `if (vout.size() < n+1) vout.resize(n+1); vout[n] = txout`. -/
def CCoins.restore (coins : CCoins) (n : Nat) (txout : CTxOut) : CCoins :=
  { coins with
    vout := (coins.vout ++ List.replicate (n + 1 - coins.vout.length) CTxOut.null).set n txout }

/-- Restore one input; the flag is `fClean`. -/
def disconnectInput (input : CTxIn × CTxInUndo) (s : CoinsView × Bool) : CoinsView × Bool :=
  let (txin, undo) := input
  let coins := (s.1.coins txin.prevout.hash).getD CCoins.empty
  let base : CCoins :=
    if undo.nHeight ≠ 0 then ⟨undo.fCoinBase, [], undo.nHeight, undo.nVersion⟩ else coins
  -- with a height in the undo data the entry must be gone, without one it must be there
  let expected := if undo.nHeight ≠ 0 then coins.isPruned else !coins.isPruned
  (s.1.setCoins txin.prevout.hash (base.restore txin.prevout.n.toNat undo.txout),
    s.2 && expected && !base.isAvailable txin.prevout.n.toNat)

/-- Undo one transaction; the coinbase comes without undo data. -/
def disconnectTransaction [Hashing] (nHeight : Int) (entry : CTransaction × Option CTxUndo)
    (s : CoinsView × Bool) : Except Failure (CoinsView × Bool) :=
  let (tx, txundo) := entry
  let outs := (s.1.coins tx.getHash).getD CCoins.empty
  let fClean := s.2 && s.1.haveCoins tx.getHash && outs = CCoins.ofTransaction tx nHeight
  let view := s.1.setCoins tx.getHash CCoins.empty
  match txundo with
  | none => .ok (view, fClean)
  | some vprevout =>
      if vprevout.length = tx.vin.length then
        .ok ((tx.vin.zip vprevout).foldr disconnectInput (view, fClean))
      else .error (.refused "DisconnectBlock() : transaction and undo data inconsistent")

/-- DisconnectBlock, with the verdict it stores in `*pfClean`. -/
def CBlock.disconnectBlock [Hashing] [PubKeys] (block : CBlock) (pindex : CBlockIndex)
    (undoFiles : CDiskBlockPos → Bytes) (view : CoinsView) : Except Failure (CoinsView × Bool) := do
  require (pindex.phashBlock = view.best) (.undefined "DisconnectBlock")
  let pos ← expect pindex.getUndoPos (.refused "DisconnectBlock() : no undo data available")
  let prev ← expect pindex.pprev (.undefined "DisconnectBlock")
  let blockUndo ← expect (CBlockUndo.readFromDisk (undoFiles pos) prev)
    (.refused "DisconnectBlock() : failure reading undo data")
  require (blockUndo.length + 1 = block.vtx.length)
    (.refused "DisconnectBlock() : block and undo data inconsistent")
  let (view, fClean) ← (block.vtx.zip (none :: blockUndo.map some)).foldrM
    (disconnectTransaction pindex.nHeight) (view, true)
  return (view.setBestBlock pindex.pprev, fClean)

end BitCrystal
