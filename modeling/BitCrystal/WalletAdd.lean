import BitCrystal.Data.Tables
import BitCrystal.WalletTx

namespace BitCrystal

open Data

/-! # How transactions get into the wallet -/

section

variable [Hashing]

/-- The loop of GetMerkleBranch, from the level of `nSize` nodes that begins at `j` on. -/
def merkleBranchFrom (vMerkleTree : List UInt256) : Nat → Nat → Nat → Nat → List UInt256
  | 0, _, _, _ => []
  | room + 1, nSize, nIndex, j =>
      if nSize ≤ 1 then []
      else
        vMerkleTree[j + min (nIndex ^^^ 1) (nSize - 1)]?.getD 0 ::
          merkleBranchFrom vMerkleTree room ((nSize + 1) / 2) (nIndex / 2) (j + nSize)

def CBlock.getMerkleBranch (block : CBlock) (nIndex : Nat) : List UInt256 :=
  merkleBranchFrom block.vMerkleTree block.vtx.length block.vtx.length nIndex 0

/-- SetMerkleBranch of a block; `operator==` locates the transaction. -/
def CMerkleTx.setMerkleBranch (tx : CMerkleTx) (pblock : CBlock) : CMerkleTx :=
  match pblock.vtx.findIdx? fun other => other.equal tx.toCTransaction with
  | none => { tx with hashBlock := pblock.getHash, vMerkleBranch := [], nIndex := -1 }
  | some nIndex =>
      { tx with hashBlock := pblock.getHash, vMerkleBranch := pblock.getMerkleBranch nIndex, nIndex := nIndex }

/-- The entry that AddToWalletIfInvolvingMe makes for a transaction. -/
def CWalletTx.ofArrival (tx : CTransaction) (pblock : Option CBlock) : CWalletTx :=
  match pblock with
  | none => .ofTransaction tx
  | some pblock =>
      { CWalletTx.ofTransaction tx with
        toCMerkleTx := (CWalletTx.ofTransaction tx).toCMerkleTx.setMerkleBranch pblock }

/-- The merge of AddToWallet into an entry that is there already, and whether it changes anything. -/
def CWalletTx.merge (wtx wtxIn : CWalletTx) : CWalletTx × Bool :=
  let newBlock := wtxIn.hashBlock ≠ 0 ∧ wtxIn.hashBlock ≠ wtx.hashBlock
  let newBranch := wtxIn.nIndex ≠ -1 ∧
    (wtxIn.vMerkleBranch ≠ wtx.vMerkleBranch ∨ wtxIn.nIndex ≠ wtx.nIndex)
  let newSender := wtxIn.fFromMe = true ∧ wtxIn.fFromMe ≠ wtx.fFromMe
  let wtx := if newBlock then { wtx with hashBlock := wtxIn.hashBlock } else wtx
  let wtx := if newBranch then { wtx with vMerkleBranch := wtxIn.vMerkleBranch, nIndex := wtxIn.nIndex } else wtx
  let wtx := if newSender then { wtx with fFromMe := wtxIn.fFromMe } else wtx
  let (wtx, newFlags) := wtx.updateSpent wtxIn.vfSpent
  (wtx, decide newBlock || decide newBranch || decide newSender || newFlags)

end

namespace TxWallet

def setTx (w : TxWallet) (hash : UInt256) (wtx : CWalletTx) : TxWallet :=
  { w with mapWallet := w.mapWallet.insert hash wtx }

variable [Hashing] [ScriptDigests] (chain : MainChain)

/-- One turn of the loop of WalletUpdateSpent. The credit is read for a line of the log only, but what
GetCredit throws leaves the loop. -/
def updateSpentBy (w : TxWallet) (txin : CTxIn) : TxWallet × Except Failure Unit :=
  match w.mapWallet[txin.prevout.hash]? with
  | none => (w, .ok ())
  | some wtx =>
      match wtx.vout[txin.prevout.n.toNat]? with
      | none => (w, .ok ())
      | some txout =>
          if !wtx.isSpent txin.prevout.n.toNat && w.isMine txout then
            match wtx.getCredit chain w true with
            | (wtx, .error failure) => (w.setTx txin.prevout.hash wtx, .error failure)
            | (wtx, .ok _) => (w.setTx txin.prevout.hash (wtx.markSpent txin.prevout.n.toNat).1, .ok ())
          else (w, .ok ())

def updateSpentLoop : List CTxIn → TxWallet → TxWallet × Except Failure Unit
  | [], w => (w, .ok ())
  | txin :: rest, w =>
      match w.updateSpentBy chain txin with
      | (w, .error failure) => (w, .error failure)
      | (w, .ok ()) => updateSpentLoop rest w

def walletUpdateSpent (w : TxWallet) (tx : CTransaction) : TxWallet × Except Failure Unit :=
  updateSpentLoop chain tx.vin w

omit [ScriptDigests] in
/-- The entry that AddToWallet makes or merges, and whether it has to be written to disk. -/
def entryFor (w : TxWallet) (wtxIn : CWalletTx) : CWalletTx × Bool :=
  match w.mapWallet[wtxIn.getHash]? with
  | none => (wtxIn.bindWallet, true)
  | some wtx => wtx.bindWallet.merge wtxIn

/-- AddToWallet without its times, its order positions and the new default key; `fWritten` is the answer of
WriteToDisk. -/
def addToWallet (w : TxWallet) (wtxIn : CWalletTx) (fWritten : Bool) : TxWallet × Except Failure Bool :=
  let (wtx, fChanged) := w.entryFor wtxIn
  let w := w.setTx wtxIn.getHash wtx
  if fChanged && !fWritten then (w, .ok false)
  else
    match w.walletUpdateSpent chain wtx.toCTransaction with
    | (w, .error failure) => (w, .error failure)
    | (w, .ok ()) => (w, .ok true)

def addToWalletIfInvolvingMe (w : TxWallet) (hash : UInt256) (tx : CTransaction) (pblock : Option CBlock)
    (fUpdate fWritten : Bool) : TxWallet × Except Failure Bool :=
  let fExisted := w.mapWallet[hash]?.isSome
  if fExisted && !fUpdate then (w, .ok false)
  else if fExisted || w.isMineTx tx then w.addToWallet chain (.ofArrival tx pblock) fWritten
  else
    match w.isFromMe tx with
    | .error failure => (w, .error failure)
    | .ok true => w.addToWallet chain (.ofArrival tx pblock) fWritten
    | .ok false =>
        match w.walletUpdateSpent chain tx with
        | (w, .error failure) => (w, .error failure)
        | (w, .ok ()) => (w, .ok false)

end TxWallet

end BitCrystal
