import BitCrystal.Block
import BitCrystal.Coins

namespace BitCrystal

open Data

/-! # Coins views and what transactions do to them

Validation code uses a stack of CCoinsViewCache objects over a database only
through the coins entry each txid reads as and the best block.  `CoinsView` is
that content; a pruned entry may stay in a cache until it is written to the
database. -/

structure CoinsView where
  coins : UInt256 → Option CCoins
  best : Option UInt256

namespace CoinsView

def haveCoins (view : CoinsView) (txid : UInt256) : Bool :=
  (view.coins txid).isSome

def setCoins (view : CoinsView) (txid : UInt256) (coins : CCoins) : CoinsView :=
  { view with coins := fun other => if other = txid then some coins else view.coins other }

def setBestBlock (view : CoinsView) (pindex : Option UInt256) : CoinsView :=
  { view with best := pindex }

def outputAt (view : CoinsView) (place : UInt256 × Nat) : Option CTxOut :=
  (view.coins place.1).bind fun coins => coins.output place.2

def output (view : CoinsView) (outpoint : COutPoint) : Option CTxOut :=
  view.outputAt outpoint.place

@[simp] theorem setCoins_best (view : CoinsView) (txid : UInt256) (coins : CCoins) :
    (view.setCoins txid coins).best = view.best := rfl

@[simp] theorem setCoins_same (view : CoinsView) (txid : UInt256) (coins : CCoins) :
    (view.setCoins txid coins).coins txid = some coins := by
  simp [setCoins]

theorem setCoins_other (view : CoinsView) {txid other : UInt256} (coins : CCoins)
    (different : other ≠ txid) : (view.setCoins txid coins).coins other = view.coins other := by
  simp [setCoins, different]

@[simp] theorem setBestBlock_coins (view : CoinsView) (pindex : Option UInt256) :
    (view.setBestBlock pindex).coins = view.coins := rfl

@[simp] theorem setBestBlock_output (view : CoinsView) (pindex : Option UInt256)
    (outpoint : COutPoint) : (view.setBestBlock pindex).output outpoint = view.output outpoint := rfl

theorem output_eq_some {view : CoinsView} {outpoint : COutPoint} {txout : CTxOut} :
    view.output outpoint = some txout ↔
      ∃ coins, view.coins outpoint.hash = some coins ∧ coins.output outpoint.n.toNat = some txout := by
  simp [output, outputAt, COutPoint.place, Option.bind_eq_some_iff]

end CoinsView

/-! ## Running scripts -/

/-- The script interpreter and the template matcher of script.cpp. A stack is
listed from its bottom. -/
class ScriptMachine where
  evalScript : List Bytes → CScript → CTransaction → Nat → UInt32 → Int → Option (List Bytes)
  solver : CScript → Option (txnouttype × List Bytes)

section

variable [ScriptMachine]

open ScriptMachine

/-- The pay-to-script-hash part of VerifyScript. EvalScript of the output script
fails on an empty stack, so `stackCopy` has an item. -/
def verifyRedeemScript (stackCopy : List Bytes) (scriptSig : CScript) (txTo : CTransaction)
    (nIn : Nat) (flags : UInt32) (nHashType : Int) : Bool :=
  scriptSig.isPushOnly &&
    match stackCopy.getLast? with
    | none => false
    | some pubKey2 =>
        match evalScript stackCopy.dropLast pubKey2 txTo nIn flags nHashType with
        | none => false
        | some stack => stack.getLast?.any castToBool

def verifyScript (scriptSig scriptPubKey : CScript) (txTo : CTransaction) (nIn : Nat)
    (flags : UInt32) (nHashType : Int) : Bool :=
  match evalScript [] scriptSig txTo nIn flags nHashType with
  | none => false
  | some stackCopy =>
      match evalScript stackCopy scriptPubKey txTo nIn flags nHashType with
      | none => false
      | some stack =>
          stack.getLast?.any castToBool &&
            if flags &&& SCRIPT_VERIFY_P2SH ≠ 0 ∧ scriptPubKey.isPayToScriptHash then
              verifyRedeemScript stackCopy scriptSig txTo nIn flags nHashType
            else true

/-- One deferred script verification. -/
structure CScriptCheck where
  scriptPubKey : CScript
  txTo : CTransaction
  nIn : Nat
  nFlags : UInt32
  nHashType : Int
deriving DecidableEq

def CScriptCheck.run (check : CScriptCheck) : Bool :=
  match check.txTo.vin[check.nIn]? with
  | none => false
  | some txin =>
      verifyScript txin.scriptSig check.scriptPubKey check.txTo check.nIn check.nFlags check.nHashType

end

/-! ## Inputs of a transaction -/

namespace CTransaction

def haveInputs (tx : CTransaction) (view : CoinsView) : Bool :=
  tx.isCoinBase ||
    (tx.vin.all (fun txin => view.haveCoins txin.prevout.hash) &&
      tx.vin.all (fun txin => (view.output txin.prevout).isSome))

/-- GetOutputFor, with its assertion that the output is available. -/
def getOutputFor (view : CoinsView) (txin : CTxIn) : Except Failure CTxOut :=
  expect (view.output txin.prevout) (.undefined "GetOutputFor")

def addValueIn (view : CoinsView) (nResult : Int) (txin : CTxIn) : Except Failure Int := do
  let prev ← getOutputFor view txin
  addInt64 nResult prev.value

def getValueIn (tx : CTransaction) (view : CoinsView) : Except Failure Int :=
  if tx.isCoinBase then .ok 0 else tx.vin.foldlM (addValueIn view) 0

def addP2SHSigOps (view : CoinsView) (nSigOps : Nat) (txin : CTxIn) : Except Failure Nat := do
  let prevout ← getOutputFor view txin
  if prevout.scriptPubKey.isPayToScriptHash then
    return nSigOps + prevout.scriptPubKey.getP2SHSigOpCount txin.scriptSig
  else
    return nSigOps

def getP2SHSigOpCount (tx : CTransaction) (view : CoinsView) : Except Failure Nat :=
  if tx.isCoinBase then .ok 0 else tx.vin.foldlM (addP2SHSigOps view) 0

/-- One turn of the first loop of CheckInputs. -/
def checkInput (view : CoinsView) (nSpendHeight : Int) (nValueIn : Int) (txin : CTxIn) :
    Except Failure Int := do
  let coins ← expect (view.coins txin.prevout.hash) (.undefined "CheckInputs")
  require (coins.fCoinBase → COINBASE_MATURITY ≤ nSpendHeight - coins.nHeight)
    (.dos 0 "CheckInputs() : tried to spend coinbase at depth")
  let prev ← expect coins.vout[txin.prevout.n.toNat]? (.undefined "CheckInputs")
  let nValueIn ← addInt64 nValueIn prev.value
  require (moneyRange prev.value ∧ moneyRange nValueIn)
    (.dos 100 "CheckInputs() : txin values out of range")
  return nValueIn

section

variable [ScriptMachine]

/-- The closure that checks input `nIn`, with the output script it found. -/
def scriptCheck (tx : CTransaction) (view : CoinsView) (flags : UInt32) (input : CTxIn × Nat) :
    Except Failure CScriptCheck := do
  let coins ← expect (view.coins input.1.prevout.hash) (.undefined "CheckInputs")
  let prev ← expect coins.vout[input.1.prevout.n.toNat]? (.undefined "CheckInputs")
  return ⟨prev.scriptPubKey, tx, input.2, flags, 0⟩

/-- A script check that is not deferred. A failure that only the strict encoding
rules cause does not trigger DoS protection. -/
def runScriptCheck (check : CScriptCheck) : Except Failure Unit :=
  if check.run then .ok ()
  else if check.nFlags &&& SCRIPT_VERIFY_STRICTENC ≠ 0 ∧
      CScriptCheck.run { check with nFlags := check.nFlags &&& ~~~SCRIPT_VERIFY_STRICTENC } then
    .error (.dos 0 "CheckInputs() : non-canonical encoding")
  else .error (.dos 100 "CheckInputs() : script check failed")

/-- CheckInputs. The result holds the checks pushed onto `*pvChecks`, when there
is such a vector. -/
def checkInputs (tx : CTransaction) (mapBlockIndex : BlockMap) (inputs : CoinsView)
    (fScriptChecks : Bool) (flags : UInt32) (pvChecks : Bool) :
    Except Failure (List CScriptCheck) :=
  if tx.isCoinBase then .ok []
  else do
    require (tx.haveInputs inputs) (.dos 0 "CheckInputs() : inputs unavailable")
    let pindexBest ← expect (inputs.best.bind mapBlockIndex) (.undefined "CheckInputs")
    let nSpendHeight := pindexBest.nHeight + 1
    let nValueIn ← tx.vin.foldlM (checkInput inputs nSpendHeight) 0
    let nValueOut ← tx.getValueOut
    require (nValueOut ≤ nValueIn) (.dos 100 "CheckInputs() : value in < value out")
    let nTxFee ← subInt64 nValueIn nValueOut
    require (0 ≤ nTxFee) (.dos 100 "CheckInputs() : nTxFee < 0")
    require (moneyRange nTxFee) (.dos 100 "CheckInputs() : nFees out of range")
    if fScriptChecks then
      let checks ← tx.vin.zipIdx.mapM (tx.scriptCheck inputs flags)
      if pvChecks then
        return checks
      else
        forM checks runScriptCheck
        return []
    else
      return []

end

/-! ## UpdateCoins -/

/-- The loop of UpdateCoins that marks inputs spent. -/
def spendInputs : List CTxIn → CoinsView → Except Failure (CoinsView × CTxUndo)
  | [], inputs => .ok (inputs, [])
  | txin :: rest, inputs => do
      let coins ← expect (inputs.coins txin.prevout.hash) (.undefined "UpdateCoins")
      let (spent, undo) ← expect (coins.spend txin.prevout.n.toNat) (.undefined "UpdateCoins")
      let (inputs, vprevout) ← spendInputs rest (inputs.setCoins txin.prevout.hash spent)
      return (inputs, undo :: vprevout)

/-- The inputs that UpdateCoins marks spent. -/
def spentInputs (tx : CTransaction) : List CTxIn :=
  if tx.isCoinBase then [] else tx.vin

def updateCoins (tx : CTransaction) (inputs : CoinsView) (nHeight : Int) (txhash : UInt256) :
    Except Failure (CoinsView × CTxUndo) := do
  let (inputs, txundo) ← spendInputs tx.spentInputs inputs
  return (inputs.setCoins txhash (CCoins.ofTransaction tx nHeight), txundo)

theorem haveInputs_iff {tx : CTransaction} {view : CoinsView} :
    tx.haveInputs view = true ↔
      ∀ txin ∈ tx.spentInputs, ∃ txout, view.output txin.prevout = some txout := by
  unfold haveInputs spentInputs
  cases coinBase : tx.isCoinBase with
  | true => simp
  | false =>
      simp only [Bool.false_or, Bool.and_eq_true, List.all_eq_true, Option.isSome_iff_exists,
        Bool.false_eq_true, if_false]
      constructor
      · intro both
        exact both.2
      · intro available
        refine ⟨fun txin member => ?_, available⟩
        obtain ⟨txout, found⟩ := available txin member
        obtain ⟨coins, entry, _⟩ := CoinsView.output_eq_some.mp found
        simp [CoinsView.haveCoins, entry]

theorem spendInputs_cons_eq_ok {txin : CTxIn} {rest : List CTxIn} {before after : CoinsView}
    {undos : CTxUndo} :
    spendInputs (txin :: rest) before = .ok (after, undos) ↔
      ∃ coins spent undo vprevout, before.coins txin.prevout.hash = some coins ∧
        coins.spend txin.prevout.n.toNat = some (spent, undo) ∧
        spendInputs rest (before.setCoins txin.prevout.hash spent) = .ok (after, vprevout) ∧
        undos = undo :: vprevout := by
  simp only [spendInputs, bind_eq_ok, expect_eq_ok, pure_eq_ok, Prod.exists, Prod.mk.injEq]
  constructor
  · rintro ⟨coins, entry, spent, undo, step, view, vprevout, run, rfl, rfl⟩
    exact ⟨coins, spent, undo, vprevout, entry, step, run, rfl⟩
  · rintro ⟨coins, spent, undo, vprevout, entry, step, run, rfl⟩
    exact ⟨coins, entry, spent, undo, step, after, vprevout, run, rfl, rfl⟩

theorem updateCoins_eq_ok {tx : CTransaction} {before after : CoinsView} {nHeight : Int}
    {txhash : UInt256} {txundo : CTxUndo} :
    tx.updateCoins before nHeight txhash = .ok (after, txundo) ↔
      ∃ spent, spendInputs tx.spentInputs before = .ok (spent, txundo) ∧
        after = spent.setCoins txhash (CCoins.ofTransaction tx nHeight) := by
  simp only [updateCoins, bind_eq_ok, pure_eq_ok, Prod.exists, Prod.mk.injEq]
  constructor
  · rintro ⟨spent, undo, run, rfl, rfl⟩
    exact ⟨spent, run, rfl⟩
  · rintro ⟨spent, run, rfl⟩
    exact ⟨spent, txundo, run, rfl, rfl⟩

end CTransaction

end BitCrystal
