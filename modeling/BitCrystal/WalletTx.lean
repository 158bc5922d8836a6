import BitCrystal.Block
import BitCrystal.Data.Memo
import BitCrystal.Ownership

namespace BitCrystal

open Data

/-! # Wallet transactions and their amounts -/

/-! ## The depth of a transaction -/

/-- What the depth of a transaction is computed from; `best` is the entry that `pindexBest` points to. -/
structure MainChain where
  mapBlockIndex : BlockMap
  pindexBest : UInt256
  best : CBlockIndex
  nBestHeight : Int
  adjustedTime : Int
  /-- No block of the main chain is above its tip. -/
  height_le : ∀ hash pindex, mapBlockIndex hash = some pindex →
    pindex.pnext ≠ none ∨ hash = pindexBest → pindex.nHeight ≤ best.nHeight

structure CMerkleTx extends CTransaction where
  hashBlock : UInt256
  vMerkleBranch : List UInt256
  nIndex : Int
  fMerkleVerified : Bool
deriving DecidableEq

/-- `CMerkleTx(txIn)` -/
def CMerkleTx.ofTransaction (txIn : CTransaction) : CMerkleTx := ⟨txIn, 0, [], -1, false⟩

section

variable [Hashing]

/-- CheckMerkleBranch after its test of `nIndex`. -/
def foldBranch : UInt256 → List UInt256 → Int → UInt256
  | hash, [], _ => hash
  | hash, otherside :: rest, nIndex =>
      foldBranch (if nIndex % 2 = 1 then hashPair otherside hash else hashPair hash otherside) rest (nIndex / 2)

def checkMerkleBranch (hash : UInt256) (vMerkleBranch : List UInt256) (nIndex : Int) : UInt256 :=
  if nIndex = -1 then 0 else foldBranch hash vMerkleBranch nIndex

namespace CMerkleTx

variable (chain : MainChain)

def claimedBlock (tx : CMerkleTx) : Option CBlockIndex :=
  if tx.hashBlock = 0 ∨ tx.nIndex = -1 then none
  else
    match chain.mapBlockIndex tx.hashBlock with
    | none => none
    | some pindex => if pindex.pnext ≠ none ∨ tx.hashBlock = chain.pindexBest then some pindex else none

def connects (tx : CMerkleTx) (pindex : CBlockIndex) : Bool :=
  tx.fMerkleVerified ||
    checkMerkleBranch tx.getHash tx.vMerkleBranch tx.nIndex = pindex.hashMerkleRoot

def getDepthInMainChain (tx : CMerkleTx) : Int :=
  match tx.claimedBlock chain with
  | none => 0
  | some pindex => if tx.connects pindex then chain.best.nHeight - pindex.nHeight + 1 else 0

/-- `fMerkleVerified` after GetDepthInMainChain. -/
def verifies (tx : CMerkleTx) : Bool :=
  tx.fMerkleVerified || (tx.claimedBlock chain).any fun pindex => tx.connects pindex

def getBlocksToMaturity (tx : CMerkleTx) : Int :=
  if tx.isCoinBase then max 0 (COINBASE_MATURITY + 20 - tx.getDepthInMainChain chain) else 0

/-- IsFinal without arguments. -/
def isFinalNow (tx : CMerkleTx) : Bool :=
  tx.toCTransaction.isFinal chain.nBestHeight chain.adjustedTime 0 0

/-- The condition `IsCoinBase() && GetBlocksToMaturity() > 0`. -/
def immature (tx : CMerkleTx) : Bool :=
  tx.isCoinBase && 0 < tx.getBlocksToMaturity chain

theorem getDepthInMainChain_nonneg (tx : CMerkleTx) : 0 ≤ tx.getDepthInMainChain chain := by
  unfold getDepthInMainChain
  cases claimed : tx.claimedBlock chain with
  | none => exact Int.le_refl 0
  | some pindex =>
      simp only
      split
      · have below : pindex.nHeight ≤ chain.best.nHeight := by
          unfold claimedBlock at claimed
          split at claimed
          · cases claimed
          · split at claimed
            · cases claimed
            · rename_i found
              split at claimed
              · rename_i onChain
                cases claimed
                exact chain.height_le _ _ found onChain
              · cases claimed
        omega
      · exact Int.le_refl 0

end CMerkleTx

end

/-! ## The wallet -/

structure CWalletTx extends CMerkleTx where
  vtxPrev : List CMerkleTx
  fFromMe : Bool
  strFromAccount : String
  vfSpent : List Bool
  /-- `fDebitCached` and `nDebitCached`, and so on. -/
  debit : Memo Int
  credit : Memo Int
  immatureCredit : Memo Int
  availableCredit : Memo Int
  change : Memo Int
deriving DecidableEq

/-- `CWalletTx(pwallet, txIn)` -/
def CWalletTx.ofTransaction (txIn : CTransaction) : CWalletTx where
  toCMerkleTx := .ofTransaction txIn
  vtxPrev := []
  fFromMe := false
  strFromAccount := ""
  vfSpent := []
  debit := ⟨false, 0⟩
  credit := ⟨false, 0⟩
  immatureCredit := ⟨false, 0⟩
  availableCredit := ⟨false, 0⟩
  change := ⟨false, 0⟩

/-- The parts of CWallet that amounts are computed from. -/
structure TxWallet where
  keystore : CKeyStore
  mapAddressBook : Std.ExtTreeMap CTxDestination String
  mapWallet : Std.ExtTreeMap UInt256 CWalletTx

namespace TxWallet

/-- One turn of the loops of GetDebit, GetCredit and GetChange over the parts of a transaction. -/
def addAmount {α : Type} (amount : α → Except Failure Int) (what : String) (nSum : Int) (part : α) :
    Except Failure Int := do
  let nAmount ← amount part
  let nSum ← addInt64 nSum nAmount
  require (moneyRange nSum) (.exception what)
  return nSum

/-- The output in `mapWallet` that an input spends. -/
def prevOut (w : TxWallet) (txin : CTxIn) : Option CTxOut :=
  w.mapWallet[txin.prevout.hash]?.bind fun prev => prev.vout[txin.prevout.n.toNat]?

variable [ScriptDigests]

/-- IsMine of an output. -/
def isMine (w : TxWallet) (txout : CTxOut) : Bool := w.keystore.isMine txout.scriptPubKey

/-- IsMine of a transaction. -/
def isMineTx (w : TxWallet) (tx : CTransaction) : Bool := tx.vout.any w.isMine

/-- GetDebit of an input. -/
def getDebitOf (w : TxWallet) (txin : CTxIn) : Int :=
  match w.prevOut txin with
  | none => 0
  | some prev => if w.isMine prev then prev.value else 0

def getDebit (w : TxWallet) (tx : CTransaction) : Except Failure Int :=
  tx.vin.foldlM (addAmount (fun txin => .ok (w.getDebitOf txin)) "CWallet::GetDebit() : value out of range") 0

def isFromMe (w : TxWallet) (tx : CTransaction) : Except Failure Bool := do
  let nDebit ← w.getDebit tx
  return 0 < nDebit

/-- GetCredit of an output. -/
def getCreditOf (w : TxWallet) (txout : CTxOut) : Except Failure Int := do
  require (moneyRange txout.value) (.exception "CWallet::GetCredit() : value out of range")
  return if w.isMine txout then txout.value else 0

def getCredit (w : TxWallet) (tx : CTransaction) : Except Failure Int :=
  tx.vout.foldlM (addAmount w.getCreditOf "CWallet::GetCredit() : value out of range") 0

def isChange (w : TxWallet) (txout : CTxOut) : Bool :=
  match extractDestination txout.scriptPubKey with
  | none => false
  | some address => w.keystore.isMineAddress address && w.mapAddressBook[address]?.isNone

/-- GetChange of an output. -/
def getChangeOf (w : TxWallet) (txout : CTxOut) : Except Failure Int := do
  require (moneyRange txout.value) (.exception "CWallet::GetChange() : value out of range")
  return if w.isChange txout then txout.value else 0

def getChange (w : TxWallet) (tx : CTransaction) : Except Failure Int :=
  tx.vout.foldlM (addAmount w.getChangeOf "CWallet::GetChange() : value out of range") 0

end TxWallet

/-! ## The spent flags and the cached amounts -/

namespace CWalletTx

def markDirty (wtx : CWalletTx) : CWalletTx :=
  { wtx with
    credit := wtx.credit.clear
    availableCredit := wtx.availableCredit.clear
    debit := wtx.debit.clear
    change := wtx.change.clear }

/-- BindWallet; which wallet `pwallet` points to is an argument of the functions that read it. -/
def bindWallet (wtx : CWalletTx) : CWalletTx := wtx.markDirty

/-- The flags that UpdateSpent leaves, and whether it has set any. -/
def mergeSpent : List Bool → List Bool → List Bool × Bool
  | [], vfSpent => (vfSpent, false)
  | _, [] => ([], false)
  | fNew :: vfNewSpent, fSpent :: vfSpent =>
      let rest := mergeSpent vfNewSpent vfSpent
      ((fNew || fSpent) :: rest.1, (fNew && !fSpent) || rest.2)

def updateSpent (wtx : CWalletTx) (vfNewSpent : List Bool) : CWalletTx × Bool :=
  let merged := mergeSpent vfNewSpent wtx.vfSpent
  if merged.2 then
    ({ wtx with vfSpent := merged.1, availableCredit := wtx.availableCredit.clear }, true)
  else (wtx, false)

/-- `vfSpent.resize(vout.size())` -/
def resizedSpent (wtx : CWalletTx) : List Bool :=
  wtx.vfSpent.take wtx.vout.length ++ List.replicate (wtx.vout.length - wtx.vfSpent.length) false

def markSpent (wtx : CWalletTx) (nOut : Nat) : CWalletTx × Except Failure Unit :=
  if wtx.vout.length ≤ nOut then
    (wtx, .error (.exception "CWalletTx::MarkSpent() : nOut out of range"))
  else if wtx.resizedSpent[nOut]? = some true then
    ({ wtx with vfSpent := wtx.resizedSpent }, .ok ())
  else
    ({ wtx with
        vfSpent := wtx.resizedSpent.set nOut true
        availableCredit := wtx.availableCredit.clear }, .ok ())

/-- IsSpent of an output that exists. -/
def isSpent (wtx : CWalletTx) (nOut : Nat) : Bool := wtx.vfSpent[nOut]?.getD false

variable [ScriptDigests]

/-- The sum in GetAvailableCredit. -/
def sumAvailable (wtx : CWalletTx) (w : TxWallet) : Except Failure Int :=
  wtx.vout.zipIdx.foldlM (fun nCredit entry =>
    if wtx.isSpent entry.2 then .ok nCredit
    else
      TxWallet.addAmount w.getCreditOf "CWalletTx::GetAvailableCredit() : value out of range" nCredit entry.1) 0

def getDebit (wtx : CWalletTx) (w : TxWallet) : CWalletTx × Except Failure Int :=
  if wtx.vin = [] then (wtx, .ok 0)
  else
    let (debit, nDebit) := wtx.debit.read true (w.getDebit wtx.toCTransaction)
    ({ wtx with debit }, nDebit)

def getChange (wtx : CWalletTx) (w : TxWallet) : CWalletTx × Except Failure Int :=
  let (change, nChange) := wtx.change.read true (w.getChange wtx.toCTransaction)
  ({ wtx with change }, nChange)

variable [Hashing] (chain : MainChain)

/-- The transaction after the test whether it is an immature coinbase, which remembers that the
Merkle branch has been checked. -/
def tested (wtx : CWalletTx) : CWalletTx :=
  if wtx.isCoinBase then { wtx with fMerkleVerified := wtx.verifies chain } else wtx

def getCredit (wtx : CWalletTx) (w : TxWallet) (fUseCache : Bool) : CWalletTx × Except Failure Int :=
  let wtx := wtx.tested chain
  if wtx.immature chain then (wtx, .ok 0)
  else
    let (credit, nCredit) := wtx.credit.read fUseCache (w.getCredit wtx.toCTransaction)
    ({ wtx with credit }, nCredit)

def getImmatureCredit (wtx : CWalletTx) (w : TxWallet) (fUseCache : Bool) : CWalletTx × Except Failure Int :=
  let wtx := wtx.tested chain
  if wtx.immature chain && 0 < wtx.getDepthInMainChain chain then
    let (immatureCredit, nCredit) := wtx.immatureCredit.read fUseCache (w.getCredit wtx.toCTransaction)
    ({ wtx with immatureCredit }, nCredit)
  else (wtx, .ok 0)

def getAvailableCredit (wtx : CWalletTx) (w : TxWallet) (fUseCache : Bool) : CWalletTx × Except Failure Int :=
  let wtx := wtx.tested chain
  if wtx.immature chain then (wtx, .ok 0)
  else
    let (availableCredit, nCredit) := wtx.availableCredit.read fUseCache (wtx.sumAvailable w)
    ({ wtx with availableCredit }, nCredit)

end CWalletTx

end BitCrystal
