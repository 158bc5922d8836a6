import BitCrystal.TransactionSerialize

namespace BitCrystal

open Data

/-! # The memory pool -/

/-! ## Standard transactions -/

/-- ScriptSigArgsExpected; `none` is the answer -1. -/
def scriptSigArgsExpected (t : txnouttype) (vSolutions : List Bytes) : Option Nat :=
  match t with
  | .TX_NONSTANDARD => none
  | .TX_PUBKEY => some 1
  | .TX_PUBKEYHASH => some 2
  | .TX_MULTISIG => (vSolutions.head?.bind List.head?).map fun nRequired => nRequired.toNat + 1
  | .TX_SCRIPTHASH => some 1

section

variable [ScriptMachine]

/-- IsStandard of a script; the first and the last solution of a multisig script
hold its two counts. -/
def CScript.isStandard (scriptPubKey : CScript) : Bool :=
  match ScriptMachine.solver scriptPubKey with
  | none => false
  | some (.TX_NONSTANDARD, _) => false
  | some (.TX_MULTISIG, vSolutions) =>
      let m := (vSolutions.head?.bind List.head?).getD 0
      let n := (vSolutions.getLast?.bind List.head?).getD 0
      1 ≤ n && n ≤ 3 && 1 ≤ m && m ≤ n
  | some _ => true

namespace CTransaction

def isStandard (settings : Settings) (nBestHeight : Int) (tx : CTransaction) : Bool :=
  tx.nVersion ≤ TXCOMMENT_VERSION &&
  isFinal nBestHeight settings.adjustedTime tx 0 0 &&
  tx.strTxComment.length ≤ MAX_TX_COMMENT_LEN &&
  tx.getSerializeSize < MAX_STANDARD_TX_SIZE &&
  tx.vin.all (fun txin => txin.scriptSig.length ≤ 500 && txin.scriptSig.isPushOnly) &&
  tx.vout.all (fun txout => txout.scriptPubKey.isStandard && !txout.isDust settings)

/-- The arguments that the redeem script of a pay-to-script-hash input takes. -/
def redeemArgsExpected (stack : List Bytes) : Option Nat := do
  let subscript ← stack.getLast?
  let (whichType2, vSolutions2) ← ScriptMachine.solver subscript
  if whichType2 = .TX_SCRIPTHASH then none else scriptSigArgsExpected whichType2 vSolutions2

/-- The verdict of AreInputsStandard on input `input.2` that spends `prev`. -/
def isInputStandard (tx : CTransaction) (prev : CTxOut) (input : CTxIn × Nat) : Bool :=
  match ScriptMachine.solver prev.scriptPubKey with
  | none => false
  | some (whichType, vSolutions) =>
      match scriptSigArgsExpected whichType vSolutions,
          ScriptMachine.evalScript [] input.1.scriptSig tx input.2 0 0 with
      | some nArgsExpected, some stack =>
          if whichType = .TX_SCRIPTHASH then
            (redeemArgsExpected stack).any fun tmpExpected => stack.length = nArgsExpected + tmpExpected
          else stack.length = nArgsExpected
      | _, _ => false

def addInputStandard (tx : CTransaction) (view : CoinsView) (standard : Bool) (input : CTxIn × Nat) :
    Except Failure Bool := do
  let prev ← getOutputFor view input.1
  return standard && tx.isInputStandard prev input

def areInputsStandard (tx : CTransaction) (view : CoinsView) : Except Failure Bool :=
  if tx.isCoinBase then .ok true else tx.vin.zipIdx.foldlM (tx.addInputStandard view) true

/-- GetMinFee: `IS_FREE` is 1. -/
def getMinFee : Int := 0

end CTransaction

end

/-! ## The pool -/

/-- An input that spends an outpoint; `ptx` points to the transaction that `mapTx`
stores under this hash. -/
structure CInPoint where
  ptx : UInt256
  n : Nat
deriving DecidableEq

structure CTxMemPool where
  mapTx : Std.ExtTreeMap UInt256 CTransaction
  mapNextTx : Std.ExtTreeMap COutPoint CInPoint

/-- What CTxMemPool::accept reads of the rest of the program. The verdict of the
rate limiter comes from a clock and floating-point arithmetic. -/
structure AcceptContext where
  settings : Settings
  mapBlockIndex : BlockMap
  nBestHeight : Int
  pcoinsTip : CoinsView
  fRateLimited : Bool

namespace CTxMemPool

def empty : CTxMemPool := ⟨∅, ∅⟩

/-- CCoinsViewMemPool: the pool's transactions as coins, under those of the base view. -/
def coinsView (pool : CTxMemPool) (base : CoinsView) : CoinsView :=
  { base with
    coins := fun txid => (base.coins txid).or
      (pool.mapTx[txid]?.map fun tx => CCoins.ofTransaction tx MEMPOOL_HEIGHT) }

def addUnchecked (pool : CTxMemPool) (hash : UInt256) (tx : CTransaction) : CTxMemPool where
  mapTx := pool.mapTx.insert hash tx
  mapNextTx := tx.vin.zipIdx.foldl
    (fun mapNextTx input => mapNextTx.insert input.1.prevout ⟨hash, input.2⟩) pool.mapNextTx

section

variable [ScriptMachine] [Hashing]

/-- The part of accept under `fCheckInputs`. -/
def acceptInputs (context : AcceptContext) (pool : CTxMemPool) (tx : CTransaction)
    (fLimitFree : Bool) : Except Failure Unit := do
  let view := pool.coinsView context.pcoinsTip
  require (!view.haveCoins tx.getHash) (.refused "")
  require (tx.vin.all fun txin => view.haveCoins txin.prevout.hash) .missingInputs
  require (tx.haveInputs view) (.dos 0 "CTxMemPool::accept() : inputs already spent")
  let standard ← tx.areInputsStandard view
  require (standard || context.settings.fTestNet)
    (.refused "CTxMemPool::accept() : nonstandard transaction input")
  let nValueIn ← tx.getValueIn view
  let nValueOut ← tx.getValueOut
  let nFees ← subInt64 nValueIn nValueOut
  require (fLimitFree → CTransaction.getMinFee ≤ nFees)
    (.refused "CTxMemPool::accept() : not enough fees")
  require (fLimitFree → nFees < context.settings.nMinRelayTxFee → !context.fRateLimited)
    (.refused "CTxMemPool::accept() : free transaction rejected by rate limiter")
  let _ ← tx.checkInputs context.mapBlockIndex view true
    (SCRIPT_VERIFY_P2SH ||| SCRIPT_VERIFY_STRICTENC) false

/-- CTxMemPool::accept; the replacement of transactions is disabled in the source. -/
def accept (context : AcceptContext) (pool : CTxMemPool) (tx : CTransaction)
    (fCheckInputs fLimitFree : Bool) : Except Failure CTxMemPool := do
  tx.checkTransaction
  require (!tx.isCoinBase) (.dos 100 "CTxMemPool::accept() : coinbase as individual tx")
  require (tx.nLockTime.toNat ≤ 0x7fffffff)
    (.refused "CTxMemPool::accept() : not accepting nLockTime beyond 2038 yet")
  require (context.settings.fTestNet || tx.isStandard context.settings context.nBestHeight)
    (.refused "CTxMemPool::accept() : nonstandard transaction type")
  require (!pool.mapTx.contains tx.getHash) (.refused "")
  require (tx.vin.all fun txin => !pool.mapNextTx.contains txin.prevout) (.refused "")
  if fCheckInputs then
    pool.acceptInputs context tx fLimitFree
    return pool.addUnchecked tx.getHash tx
  else
    return pool.addUnchecked tx.getHash tx

/-- AcceptToMemoryPool catches what the checks throw. -/
def acceptToMemoryPool (context : AcceptContext) (pool : CTxMemPool) (tx : CTransaction)
    (fCheckInputs fLimitFree : Bool) : Except Failure CTxMemPool :=
  match pool.accept context tx fCheckInputs fLimitFree with
  | .error (.exception what) => .error (.abort ("System error: " ++ what))
  | result => result

end

/-- The last part of remove: the transaction leaves both maps. -/
def unlink (pool : CTxMemPool) (hash : UInt256) (tx : CTransaction) : CTxMemPool where
  mapTx := pool.mapTx.erase hash
  mapNextTx := tx.vin.foldl (fun mapNextTx txin => mapNextTx.erase txin.prevout) pool.mapNextTx

/-- One turn of the loop of remove over the outputs, with the recursive call. -/
def removeSpender (removeChild : CTransaction → CTxMemPool → Except Failure CTxMemPool)
    (hash : UInt256) (pool : CTxMemPool) (i : Nat) : Except Failure CTxMemPool :=
  match pool.mapNextTx[(⟨hash, UInt32.ofNat i⟩ : COutPoint)]? with
  | none => .ok pool
  | some inPoint => do
      let spender ← expect pool.mapTx[inPoint.ptx]? (.undefined "CTxMemPool::remove")
      removeChild spender pool

section

variable [Hashing]

/-- CTxMemPool::remove with calls nested at most `depth` deep. -/
def removeWithin : Nat → CTransaction → Bool → CTxMemPool → Except Failure CTxMemPool
  | 0, _, _, _ => .error .endless
  | depth + 1, tx, fRecursive, pool =>
      if pool.mapTx.contains tx.getHash then do
        let pool ← (if fRecursive then
          (List.range tx.vout.length).foldlM
            (removeSpender (fun spender pool => removeWithin depth spender true pool) tx.getHash) pool
          else .ok pool)
        return pool.unlink tx.getHash tx
      else .ok pool

/-- CTxMemPool::remove. More nested calls than there are transactions only happen
when the source does not return. -/
def remove (pool : CTxMemPool) (tx : CTransaction) (fRecursive : Bool) : Except Failure CTxMemPool :=
  removeWithin (pool.mapTx.size + 1) tx fRecursive pool

/-- One turn of the loop of removeConflicts. -/
def removeConflict (tx : CTransaction) (pool : CTxMemPool) (txin : CTxIn) : Except Failure CTxMemPool :=
  match pool.mapNextTx[txin.prevout]? with
  | none => .ok pool
  | some inPoint => do
      let txConflict ← expect pool.mapTx[inPoint.ptx]? (.undefined "CTxMemPool::removeConflicts")
      if txConflict.equal tx then return pool else pool.remove txConflict true

def removeConflicts (pool : CTxMemPool) (tx : CTransaction) : Except Failure CTxMemPool :=
  tx.vin.foldlM (removeConflict tx) pool

end

end CTxMemPool

end BitCrystal
