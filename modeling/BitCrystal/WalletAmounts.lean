import BitCrystal.WalletTx

namespace BitCrystal

open Data

/-! # The balances of the wallet and of its accounts -/

/-- What GetAmounts gives: the outputs received and sent, the fee and the account that sent. -/
structure Amounts where
  listReceived : List (CTxDestination × Int)
  listSent : List (CTxDestination × Int)
  nFee : Int
  strSentAccount : String

/-- The sum of `int64` values. -/
def sumInt64 (values : List Int) : Except Failure Int := values.foldlM addInt64 0

variable [Hashing] [ScriptDigests]

omit [Hashing] in
/-- The address of an output; ExtractDestination leaves CNoDestination where it finds none. -/
def CTxOut.address (txout : CTxOut) : CTxDestination := (extractDestination txout.scriptPubKey).getD .CNoDestination

namespace CWalletTx

omit [Hashing] in
def getAmounts (wtx : CWalletTx) (w : TxWallet) : Except Failure Amounts := do
  let nDebit ← (wtx.getDebit w).2
  let nFee ← if 0 < nDebit then wtx.getValueOut >>= subInt64 nDebit else .ok 0
  -- change outputs are not reported
  let reported := wtx.vout.filter fun txout => !(decide (0 < nDebit) && w.isChange txout)
  return {
    listReceived := (reported.filter w.isMine).map fun txout => (txout.address, txout.value)
    listSent := if 0 < nDebit then reported.map fun txout => (txout.address, txout.value) else []
    nFee
    strSentAccount := wtx.strFromAccount }

end CWalletTx

namespace TxWallet

omit [Hashing] [ScriptDigests] in
def accountOf (w : TxWallet) (address : CTxDestination) : String := w.mapAddressBook[address]?.getD ""

end TxWallet

namespace CWalletTx

omit [Hashing] in
/-- GetAccountAmounts: received, sent and fee of one account. -/
def getAccountAmounts (wtx : CWalletTx) (w : TxWallet) (strAccount : String) : Except Failure (Int × Int × Int) := do
  let amounts ← wtx.getAmounts w
  let nSent ← if strAccount = amounts.strSentAccount then sumInt64 (amounts.listSent.map Prod.snd) else .ok 0
  let nFee := if strAccount = amounts.strSentAccount then amounts.nFee else 0
  let nReceived ← sumInt64
    ((amounts.listReceived.filter fun received => w.accountOf received.1 = strAccount).map Prod.snd)
  return (nReceived, nSent, nFee)

variable (chain : MainChain)

/-- The work queue of IsConfirmed, for `fuel` turns. -/
def confirmedLoop (wtx : CWalletTx) (w : TxWallet) : Nat → List CMerkleTx → Except Failure Bool
  | _, [] => .ok true
  | 0, _ :: _ => .error .endless
  | fuel + 1, ptx :: vWorkQueue =>
      if !ptx.isFinalNow chain then .ok false
      else if 1 ≤ ptx.getDepthInMainChain chain then confirmedLoop wtx w fuel vWorkQueue
      else
        match w.isFromMe ptx.toCTransaction with
        | .error failure => .error failure
        | .ok false => .ok false
        | .ok true =>
            -- of several supporting transactions with one hash `mapPrev` keeps the last
            match ptx.vin.mapM fun txin =>
                wtx.vtxPrev.reverse.find? fun prev => prev.getHash = txin.prevout.hash with
            | none => .ok false
            | some found => confirmedLoop wtx w fuel (vWorkQueue ++ found)

def isConfirmed (wtx : CWalletTx) (w : TxWallet) (fuel : Nat) : Except Failure Bool :=
  if !wtx.isFinalNow chain then .ok false
  else if 1 ≤ wtx.getDepthInMainChain chain then .ok true
  else
    match (wtx.getDebit w).2 with
    | .error failure => .error failure
    | .ok nDebit => if 0 < nDebit then confirmedLoop chain wtx w fuel [wtx.toCMerkleTx] else .ok false

end CWalletTx

namespace TxWallet

variable (chain : MainChain)

/-- The entries of `mapWallet`. -/
def entries (w : TxWallet) : List (UInt256 × CWalletTx) := w.mapWallet.toList

/-- One turn of GetBalance. -/
def addBalance (w : TxWallet) (fuel : Nat) (nTotal : Int) (entry : UInt256 × CWalletTx) : Except Failure Int := do
  let fConfirmed ← entry.2.isConfirmed chain w fuel
  if fConfirmed then
    let nCredit ← (entry.2.getAvailableCredit chain w true).2
    addInt64 nTotal nCredit
  else return nTotal

def getBalance (w : TxWallet) (fuel : Nat) : Except Failure Int := w.entries.foldlM (addBalance chain w fuel) 0

/-- One turn of the RPC call getbalance for the account `*`. -/
def addBalanceStar (w : TxWallet) (fuel : Nat) (nMinDepth nBalance : Int) (entry : UInt256 × CWalletTx) :
    Except Failure Int := do
  let fConfirmed ← entry.2.isConfirmed chain w fuel
  if !fConfirmed then return nBalance
  let amounts ← entry.2.getAmounts w
  let nBalance ← if nMinDepth ≤ entry.2.getDepthInMainChain chain then
      (amounts.listReceived.map Prod.snd).foldlM addInt64 nBalance
    else .ok nBalance
  let nBalance ← (amounts.listSent.map Prod.snd).foldlM subInt64 nBalance
  subInt64 nBalance amounts.nFee

/-- The amount that getbalance computes for the account `*`. -/
def getBalanceStar (w : TxWallet) (fuel : Nat) (nMinDepth : Int) : Except Failure Int :=
  w.entries.foldlM (addBalanceStar chain w fuel nMinDepth) 0

end TxWallet

/-! ## Accounts -/

structure CAccountingEntry where
  strAccount : String
  nCreditDebit : Int
deriving DecidableEq

/-- The accounting entries of the wallet file, in the order of its cursor. -/
abbrev AccountingEntries := List CAccountingEntry

namespace AccountingEntries

def listAccountCreditDebit (entries : AccountingEntries) (strAccount : String) : AccountingEntries :=
  if strAccount = "*" then entries else entries.filter fun entry => entry.strAccount = strAccount

def getAccountCreditDebit (entries : AccountingEntries) (strAccount : String) : Except Failure Int :=
  sumInt64 ((listAccountCreditDebit entries strAccount).map CAccountingEntry.nCreditDebit)

end AccountingEntries

namespace TxWallet

variable (chain : MainChain) (entries : AccountingEntries)

/-- One turn of GetAccountBalance. -/
def addAccountBalance (w : TxWallet) (strAccount : String) (nMinDepth nBalance : Int)
    (entry : UInt256 × CWalletTx) : Except Failure Int := do
  if !entry.2.isFinalNow chain then return nBalance
  let (nReceived, nSent, nFee) ← entry.2.getAccountAmounts w strAccount
  let nBalance ← if nReceived ≠ 0 ∧ nMinDepth ≤ entry.2.getDepthInMainChain chain then addInt64 nBalance nReceived
    else .ok nBalance
  let nPaid ← addInt64 nSent nFee
  subInt64 nBalance nPaid

def getAccountBalance (w : TxWallet) (strAccount : String) (nMinDepth : Int) : Except Failure Int := do
  let nBalance ← w.entries.foldlM (addAccountBalance chain w strAccount nMinDepth) 0
  let nCreditDebit ← entries.getAccountCreditDebit strAccount
  addInt64 nBalance nCreditDebit

/-- `mapAccountBalances[strAccount] += nAmount` -/
def credit (mapAccountBalances : Std.ExtTreeMap String Int) (strAccount : String) (nAmount : Int) :
    Except Failure (Std.ExtTreeMap String Int) := do
  let nBalance ← addInt64 (mapAccountBalances[strAccount]?.getD 0) nAmount
  return mapAccountBalances.insert strAccount nBalance

/-- `mapAccountBalances[strAccount] -= nAmount` -/
def debit (mapAccountBalances : Std.ExtTreeMap String Int) (strAccount : String) (nAmount : Int) :
    Except Failure (Std.ExtTreeMap String Int) := do
  let nBalance ← subInt64 (mapAccountBalances[strAccount]?.getD 0) nAmount
  return mapAccountBalances.insert strAccount nBalance

/-- One turn of the loop of listaccounts over the wallet. -/
def addAccounts (w : TxWallet) (nMinDepth : Int) (mapAccountBalances : Std.ExtTreeMap String Int)
    (entry : UInt256 × CWalletTx) : Except Failure (Std.ExtTreeMap String Int) := do
  let amounts ← entry.2.getAmounts w
  let balances ← debit mapAccountBalances amounts.strSentAccount amounts.nFee
  let balances ← amounts.listSent.foldlM (fun balances sent => debit balances amounts.strSentAccount sent.2) balances
  if nMinDepth ≤ entry.2.getDepthInMainChain chain then
    amounts.listReceived.foldlM (fun balances received => credit balances (w.accountOf received.1) received.2) balances
  else return balances

def ownAccounts (w : TxWallet) : Std.ExtTreeMap String Int :=
  w.mapAddressBook.toList.foldl (fun balances entry =>
    if w.keystore.isMineAddress entry.1 then balances.insert entry.2 0 else balances) ∅

def listAccounts (w : TxWallet) (nMinDepth : Int) : Except Failure (Std.ExtTreeMap String Int) := do
  let balances ← w.entries.foldlM (addAccounts chain w nMinDepth) w.ownAccounts
  (AccountingEntries.listAccountCreditDebit entries "*").foldlM
    (fun balances entry => credit balances entry.strAccount entry.nCreditDebit) balances

end TxWallet

end BitCrystal
