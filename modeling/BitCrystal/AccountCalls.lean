import BitCrystal.WalletAccounts
import BitCrystal.WalletBalances

namespace BitCrystal

open Data

/-! # Moving amounts and addresses between accounts -/

def accountFromValue (strAccount : String) : Except String String :=
  if strAccount = "*" then .error "Invalid account name" else .ok strAccount

/-- AmountFromValue after the conversion of the decimal number. -/
def amountFromValue (nAmount : Int) : Except String Int :=
  if moneyRange nAmount then .ok nAmount else .error "Invalid amount"

/-! ## move -/

/-- What the wallet file answers to movecmd, which looks at the first and the last answer only. -/
structure MoveAnswers where
  fBegun : Bool
  fDebitWritten : Bool
  fCreditWritten : Bool
  fCommitted : Bool

namespace AccountingEntries

def writeAccountingEntry (entries : AccountingEntries) (fWritten : Bool) (entry : CAccountingEntry) :
    AccountingEntries :=
  if fWritten then entries ++ [entry] else entries

def moveParams (strFrom strTo : String) (nAmount : Int) : Except String (String × String × Int) := do
  let strFrom ← accountFromValue strFrom
  let strTo ← accountFromValue strTo
  let nAmount ← amountFromValue nAmount
  return (strFrom, strTo, nAmount)

/-- movecmd; the entries of a transaction that is not committed are not in the file. -/
def movecmd (entries : AccountingEntries) (answers : MoveAnswers) (strFrom strTo : String) (nAmount : Int) :
    AccountingEntries × Except String Unit :=
  match moveParams strFrom strTo nAmount with
  | .error what => (entries, .error what)
  | .ok (strFrom, strTo, nAmount) =>
      if !answers.fBegun then (entries, .error "database error")
      else
        let debited := entries.writeAccountingEntry answers.fDebitWritten ⟨strFrom, -nAmount⟩
        let credited := debited.writeAccountingEntry answers.fCreditWritten ⟨strTo, nAmount⟩
        if !answers.fCommitted then (entries, .error "database error") else (credited, .ok ())

theorem movecmd_sum {entries : AccountingEntries} {answers : MoveAnswers}
    (both : answers.fDebitWritten = answers.fCreditWritten) (strFrom strTo : String) (nAmount : Int) :
    ((entries.movecmd answers strFrom strTo nAmount).1.map CAccountingEntry.nCreditDebit).sum =
      (entries.map CAccountingEntry.nCreditDebit).sum := by
  unfold movecmd
  split
  · rfl
  · split
    · rfl
    · dsimp only
      split
      · rfl
      · rw [both]
        cases answers.fCreditWritten <;> simp [writeAccountingEntry]

end AccountingEntries

/-! ## setaccount -/

/-- The parts of the wallet and of its file that setaccount works on. -/
structure AccountsWallet where
  keys : CWallet
  mapScripts : Std.ExtTreeMap CScriptID CScript
  mapAddressBook : Std.ExtTreeMap CTxDestination String
  mapWallet : Std.ExtTreeMap UInt256 CWalletTx
  /-- The account records of the file, by their `vchPubKey`. -/
  mapAccounts : Std.ExtTreeMap String CPubKey

/-- SetDestination for the hash of a key. -/
def CScript.ofKeyID (keyID : BitVec 160) : CScript :=
  [CScript.OP_DUP, CScript.OP_HASH160, 20] ++ littleEndian 20 keyID.toNat ++
    [CScript.OP_EQUALVERIFY, CScript.OP_CHECKSIG]

namespace AccountsWallet

def keystore (wallet : AccountsWallet) : CKeyStore := ⟨fun keyID => keyID ∈ wallet.keys.mapKeys, wallet.mapScripts⟩

def txWallet (wallet : AccountsWallet) : TxWallet := ⟨wallet.keystore, wallet.mapAddressBook, wallet.mapWallet⟩

def setAddressBookName (wallet : AccountsWallet) (address : CTxDestination) (strName : String) : AccountsWallet :=
  { wallet with mapAddressBook := wallet.mapAddressBook.insert address strName }

variable [ScriptDigests] (source : KeySource)

def bKeyUsed (wallet : AccountsWallet) (vchPubKey : CPubKey) : Bool :=
  vchPubKey.isValid && wallet.mapWallet.toList.any fun entry =>
    entry.2.vout.any fun txout => txout.scriptPubKey = CScript.ofKeyID vchPubKey.getID

def getAccountAddress (wallet : AccountsWallet) (strAccount : String) (bForceNew : Bool) :
    AccountsWallet × Except String CKeyID :=
  let vchPubKey := wallet.mapAccounts[strAccount]?.getD .empty
  if !vchPubKey.isValid || bForceNew || wallet.bKeyUsed vchPubKey then
    match wallet.keys.getKeyFromPool source false with
    | (keys, .error what) => ({ wallet with keys }, .error what)
    | (keys, .ok none) => ({ wallet with keys }, .error "Error: Keypool ran out, please call keypoolrefill first")
    | (keys, .ok (some (key, _))) =>
        let booked := { wallet with keys }.setAddressBookName (.CKeyID key.getID) strAccount
        ({ booked with mapAccounts := booked.mapAccounts.insert strAccount key }, .ok key.getID)
  else (wallet, .ok vchPubKey.getID)

/-- The part of setaccount for an address that is the current key of its account. -/
def leaveAccount (wallet : AccountsWallet) (address : CTxDestination) : AccountsWallet × Except String Unit :=
  match wallet.mapAddressBook[address]? with
  | none => (wallet, .ok ())
  | some strOldAccount =>
      match wallet.getAccountAddress source strOldAccount false with
      | (next, .error what) => (next, .error what)
      | (next, .ok keyID) =>
          if address = .CKeyID keyID then
            match next.getAccountAddress source strOldAccount true with
            | (last, .error what) => (last, .error what)
            | (last, .ok _) => (last, .ok ())
          else (next, .ok ())

def setaccount (wallet : AccountsWallet) (address : CTxDestination) (strAccount : String) :
    AccountsWallet × Except String Unit :=
  if address = .CNoDestination then (wallet, .error "Invalid BitCrystal address")
  else
    match accountFromValue strAccount with
    | .error what => (wallet, .error what)
    | .ok strAccount =>
        match wallet.leaveAccount source address with
        | (next, .error what) => (next, .error what)
        | (next, .ok ()) => (next.setAddressBookName address strAccount, .ok ())

end AccountsWallet

/-! ## What setaccount leaves -/

section

variable [ScriptDigests] {source : KeySource}

/-- The key store has lost no key and gained generated ones only. -/
structure CWallet.GainsKeys (source : KeySource) (wallet next : CWallet) : Prop where
  kept : wallet.mapKeys ⊆ next.mapKeys
  gained : ∀ keyID ∈ next.mapKeys, keyID ∈ wallet.mapKeys ∨ ∃ n, keyID = (source.generated n).key.getID

namespace CWallet

variable {wallet next last : CWallet}

theorem GainsKeys.of_eq (same : next.mapKeys = wallet.mapKeys) : wallet.GainsKeys source next :=
  ⟨same ▸ List.Subset.refl _, fun _ member => .inl (same ▸ member)⟩

theorem GainsKeys.trans (first : wallet.GainsKeys source next) (second : next.GainsKeys source last) :
    wallet.GainsKeys source last := by
  refine ⟨List.Subset.trans first.kept second.kept, fun keyID member => ?_⟩
  rcases second.gained keyID member with before | generated
  · exact first.gained keyID before
  · exact .inr generated

theorem generateNewKey_gains (source : KeySource) (wallet : CWallet) :
    wallet.GainsKeys source (wallet.generateNewKey source).1 := by
  have stored : wallet.GainsKeys source
      { wallet with mapKeys := (source.generated wallet.nGenerated).key.getID :: wallet.mapKeys } := by
    refine ⟨List.subset_cons_self _ _, fun keyID member => ?_⟩
    rcases List.mem_cons.mp member with new | before
    · exact .inr ⟨wallet.nGenerated, new⟩
    · exact .inl before
  simp only [generateNewKey]
  split_ifs
  · exact ⟨stored.kept, stored.gained⟩
  · exact ⟨stored.kept, stored.gained⟩
  · exact .of_eq rfl
  · exact .of_eq rfl

theorem writeNewKey_gains (source : KeySource) (wallet : CWallet) (nIndex : Int) :
    wallet.GainsKeys source (wallet.writeNewKey source nIndex).1 := by
  have made := wallet.generateNewKey_gains source
  unfold writeNewKey
  split
  · rename_i run
    simpa only [run] using made
  · rename_i run
    rw [run] at made
    split
    · exact ⟨made.kept, made.gained⟩
    · exact made

theorem topUpLoop_gains (source : KeySource) (turns : Nat) (wallet : CWallet) :
    wallet.GainsKeys source (wallet.topUpLoop source turns).1 := by
  induction turns generalizing wallet with
  | zero => exact .of_eq rfl
  | succ turns ih =>
      have written := wallet.writeNewKey_gains source wallet.nEnd
      unfold topUpLoop
      split
      · split
        · rename_i run
          simpa only [run] using written
        · rename_i run
          simpa only [run] using written
        · rename_i next run
          rw [run] at written
          have inserted : wallet.GainsKeys source (next.insertIndex wallet.nEnd) := ⟨written.kept, written.gained⟩
          exact inserted.trans (ih _)
      · exact .of_eq rfl

theorem topUpKeyPool_gains (source : KeySource) (wallet : CWallet) :
    wallet.GainsKeys source (wallet.topUpKeyPool source).1 := by
  have loop := wallet.topUpLoop_gains source (wallet.missing source)
  unfold topUpKeyPool
  split
  · exact .of_eq rfl
  · split
    · rename_i run
      simpa only [run] using loop
    · rename_i run
      simpa only [run] using loop

omit [ScriptDigests] in
theorem takeOldest_mapKeys [ScriptDigests] (wallet : CWallet) : wallet.takeOldest.wallet.mapKeys = wallet.mapKeys := by
  unfold takeOldest
  split
  · dsimp only
    split
    · rfl
    · split_ifs <;> rfl
  · rfl

theorem reserveKeyFromKeyPool_gains (source : KeySource) (wallet : CWallet) :
    wallet.GainsKeys source (wallet.reserveKeyFromKeyPool source).wallet := by
  have filled := wallet.topUpKeyPool_gains source
  unfold reserveKeyFromKeyPool
  split
  · exact .of_eq wallet.takeOldest_mapKeys
  · split
    · rename_i run
      simpa only [run] using filled
    · rename_i next _ run
      rw [run] at filled
      exact filled.trans (.of_eq next.takeOldest_mapKeys)

theorem getKeyFromPool_gains (source : KeySource) (wallet : CWallet) (fAllowReuse : Bool) :
    wallet.GainsKeys source (wallet.getKeyFromPool source fAllowReuse).1 := by
  have reserved := wallet.reserveKeyFromKeyPool_gains source
  have made := (wallet.reserveKeyFromKeyPool source).wallet.generateNewKey_gains source
  unfold getKeyFromPool
  dsimp only
  split
  · exact reserved
  · split
    · split
      · exact reserved
      · split
        · exact reserved
        · split
          · rename_i run
            rw [run] at made
            exact reserved.trans made
          · rename_i run
            rw [run] at made
            exact reserved.trans made
    · refine reserved.trans (.of_eq ?_)
      unfold keepKey erasePool
      split <;> rfl

end CWallet

/-- What calls that enter addresses in the book may change. -/
structure AccountsWallet.Extended (source : KeySource) (wallet next : AccountsWallet) : Prop where
  mapWallet : next.mapWallet = wallet.mapWallet
  mapScripts : next.mapScripts = wallet.mapScripts
  listed : ∀ address : CTxDestination, wallet.mapAddressBook[address]? ≠ none → next.mapAddressBook[address]? ≠ none
  keys : wallet.keys.GainsKeys source next.keys

namespace AccountsWallet

variable {wallet next last : AccountsWallet}

theorem Extended.refl (wallet : AccountsWallet) : wallet.Extended source wallet :=
  ⟨rfl, rfl, fun _ listed => listed, .of_eq rfl⟩

theorem Extended.trans (first : wallet.Extended source next) (second : next.Extended source last) :
    wallet.Extended source last :=
  ⟨second.mapWallet.trans first.mapWallet, second.mapScripts.trans first.mapScripts,
    fun address listed => second.listed address (first.listed address listed), first.keys.trans second.keys⟩

theorem setAddressBookName_extended (source : KeySource) (wallet : AccountsWallet) (address : CTxDestination)
    (strName : String) : wallet.Extended source (wallet.setAddressBookName address strName) := by
  refine ⟨rfl, rfl, fun other listed => ?_, .of_eq rfl⟩
  rw [setAddressBookName, lookup_insert]
  split
  · exact Option.some_ne_none strName
  · exact listed

theorem getAccountAddress_extended (source : KeySource) (wallet : AccountsWallet) (strAccount : String)
    (bForceNew : Bool) : wallet.Extended source (wallet.getAccountAddress source strAccount bForceNew).1 := by
  have gains := wallet.keys.getKeyFromPool_gains source false
  unfold getAccountAddress
  dsimp only
  split
  · split
    · rename_i keys _ run
      rw [run] at gains
      exact ⟨rfl, rfl, fun _ listed => listed, gains⟩
    · rename_i keys run
      rw [run] at gains
      exact ⟨rfl, rfl, fun _ listed => listed, gains⟩
    · rename_i keys key _ run
      rw [run] at gains
      have booked := setAddressBookName_extended source { wallet with keys } (.CKeyID key.getID) strAccount
      exact ⟨rfl, rfl, booked.listed, gains⟩
  · exact .refl wallet

theorem leaveAccount_extended (source : KeySource) (wallet : AccountsWallet) (address : CTxDestination) :
    wallet.Extended source (wallet.leaveAccount source address).1 := by
  unfold leaveAccount
  split
  · exact .refl wallet
  · rename_i strOldAccount _
    have first := wallet.getAccountAddress_extended source strOldAccount false
    split
    · rename_i run
      simpa only [run] using first
    · rename_i next _ run
      rw [run] at first
      split
      · have second := next.getAccountAddress_extended source strOldAccount true
        split
        · rename_i run
          rw [run] at second
          exact first.trans second
        · rename_i run
          rw [run] at second
          exact first.trans second
      · exact first

theorem setaccount_extended (source : KeySource) (wallet : AccountsWallet) (address : CTxDestination)
    (strAccount : String) : wallet.Extended source (wallet.setaccount source address strAccount).1 := by
  have left := wallet.leaveAccount_extended source address
  unfold setaccount
  split
  · exact .refl wallet
  · split
    · exact .refl wallet
    · split
      · rename_i run
        simpa only [run] using left
      · rename_i next run
        rw [run] at left
        exact left.trans (next.setAddressBookName_extended source address _)

end AccountsWallet

/-! ## The total after setaccount -/

namespace TxWallet

variable {w next : TxWallet}

/-- The second wallet has the same transactions and owns the same of their outputs; its book lists at
least the same addresses. -/
structure Relisted (w next : TxWallet) : Prop where
  mapWallet : next.mapWallet = w.mapWallet
  mine : ∀ entry ∈ w.entries, ∀ txout ∈ entry.2.vout, next.isMine txout = w.isMine txout
  address : ∀ entry ∈ w.entries, ∀ txout ∈ entry.2.vout,
    next.keystore.isMineAddress txout.address = w.keystore.isMineAddress txout.address
  listed : ∀ address : CTxDestination, w.mapAddressBook[address]? ≠ none → next.mapAddressBook[address]? ≠ none

/-- The change of a sent transaction that is no change any more; the part that also counts as received
makes no difference. -/
def newlyReported (w next : TxWallet) (deep : Bool) (vout : List CTxOut) : Int :=
  ((vout.filter fun txout => w.isChange txout && !next.isChange txout && !(deep && w.isMine txout)).map
    CTxOut.value).sum

/-- By how much the entry counts less, now that more addresses are listed. -/
def countedLess [Hashing] (w next : TxWallet) (chain : MainChain) (nMinDepth : Int) (entry : UInt256 × CWalletTx) :
    Int :=
  match (entry.2.getDebit w).2, entry.2.getAmounts w with
  | .ok nDebit, .ok _ =>
      if 0 < nDebit then w.newlyReported next (nMinDepth ≤ entry.2.getDepthInMainChain chain) entry.2.vout else 0
  | _, _ => 0

theorem isChange_eq (w : TxWallet) (txout : CTxOut) : w.isChange txout =
    (w.keystore.isMineAddress txout.address && w.mapAddressBook[txout.address]?.isNone) := by
  unfold isChange CTxOut.address
  cases extractDestination txout.scriptPubKey with
  | none => rfl
  | some address => rfl

theorem Relisted.isChange_of (relisted : w.Relisted next) {entry : UInt256 × CWalletTx} (member : entry ∈ w.entries)
    {txout : CTxOut} (output : txout ∈ entry.2.vout) (change : next.isChange txout = true) :
    w.isChange txout = true := by
  rw [isChange_eq, Bool.and_eq_true, Option.isNone_iff_eq_none] at change ⊢
  refine ⟨relisted.address entry member txout output ▸ change.1, ?_⟩
  by_contra listed
  exact relisted.listed _ listed change.2

theorem Relisted.getDebitOf_eq (relisted : w.Relisted next) (txin : CTxIn) :
    next.getDebitOf txin = w.getDebitOf txin := by
  have prevOut : next.prevOut txin = w.prevOut txin := by
    unfold TxWallet.prevOut
    rw [relisted.mapWallet]
  unfold getDebitOf
  rw [prevOut]
  cases found : w.prevOut txin with
  | none => rfl
  | some prev =>
      obtain ⟨wtx, entered, output⟩ := Option.bind_eq_some_iff.mp found
      have entry : (txin.prevout.hash, wtx) ∈ w.entries := Std.ExtTreeMap.mem_toList_iff_getElem?_eq_some.mpr entered
      simp only [relisted.mine _ entry prev (List.mem_of_getElem? output)]

theorem Relisted.getDebit_eq (relisted : w.Relisted next) (wtx : CWalletTx) :
    (wtx.getDebit next).2 = (wtx.getDebit w).2 := by
  have computed : next.getDebit wtx.toCTransaction = w.getDebit wtx.toCTransaction := by
    unfold TxWallet.getDebit
    rw [funext relisted.getDebitOf_eq]
  unfold CWalletTx.getDebit
  rw [computed]

theorem reported_sum (deep : Bool) {vout : List CTxOut}
    (fewer : ∀ txout ∈ vout, next.isChange txout = true → w.isChange txout = true)
    (mine : ∀ txout ∈ vout, next.isMine txout = w.isMine txout) :
    (if deep then (((vout.filter fun txout => !next.isChange txout).filter next.isMine).map CTxOut.value).sum else 0) -
        ((vout.filter fun txout => !next.isChange txout).map CTxOut.value).sum =
      (if deep then (((vout.filter fun txout => !w.isChange txout).filter w.isMine).map CTxOut.value).sum else 0) -
        ((vout.filter fun txout => !w.isChange txout).map CTxOut.value).sum - w.newlyReported next deep vout := by
  induction vout with
  | nil => cases deep <;> rfl
  | cons txout rest ih =>
      have others := ih (fun other member => fewer other (List.mem_cons_of_mem txout member))
        (fun other member => mine other (List.mem_cons_of_mem txout member))
      have own := mine txout List.mem_cons_self
      unfold newlyReported at others ⊢
      cases before : w.isChange txout with
      | false =>
          have after : next.isChange txout = false := by
            by_contra change
            exact absurd (fewer txout List.mem_cons_self (by simpa using change)) (by simp [before])
          cases deep <;> cases isMine : w.isMine txout <;>
            simp [before, after, own, isMine, -List.filter_filter] at others ⊢ <;> omega
      | true =>
          cases after : next.isChange txout <;> cases deep <;> cases isMine : w.isMine txout <;>
            simp [before, after, own, isMine, -List.filter_filter] at others ⊢ <;> omega

variable [Hashing] {chain : MainChain} {nMinDepth : Int}

theorem Relisted.movementTotal_eq (relisted : w.Relisted next) {entry : UInt256 × CWalletTx}
    (member : entry ∈ w.entries) : next.movementTotal chain nMinDepth entry =
      w.movementTotal chain nMinDepth entry - w.countedLess next chain nMinDepth entry := by
  have sums := reported_sum (nMinDepth ≤ entry.2.getDepthInMainChain chain)
    (fun txout output => relisted.isChange_of member output) (relisted.mine entry member)
  have own : entry.2.vout.filter next.isMine = entry.2.vout.filter w.isMine :=
    List.filter_congr (relisted.mine entry member)
  have values : ∀ outputs : List CTxOut,
      List.map (Prod.snd ∘ fun txout : CTxOut => (txout.address, txout.value)) outputs = outputs.map CTxOut.value :=
    fun outputs => rfl
  unfold movementTotal countedLess CWalletTx.getAmounts
  rw [relisted.getDebit_eq entry.2]
  cases (entry.2.getDebit w).2 with
  | error failure => simp
  | ok nDebit =>
      by_cases sent : 0 < nDebit
      · simp only [ok_bind, if_pos sent]
        cases entry.2.getValueOut >>= subInt64 nDebit with
        | error failure => simp
        | ok nFee =>
            simp only [decide_eq_true_eq] at sums
            simp only [ok_bind, pure, Except.pure, sent, decide_true, Bool.true_and, if_true, List.map_map, values]
            omega
      · have all : (entry.2.vout.filter fun _ => true) = entry.2.vout := List.filter_eq_self.mpr fun _ _ => rfl
        simp only [ok_bind, pure, Except.pure, sent, decide_false, Bool.false_and, Bool.not_false, all,
          own, if_false, sub_zero]

theorem Relisted.accountTotal_eq (relisted : w.Relisted next) (entries : AccountingEntries) :
    next.accountTotal chain entries nMinDepth =
      w.accountTotal chain entries nMinDepth -
        ((w.finalEntries chain).map (w.countedLess next chain nMinDepth)).sum := by
  have same : next.finalEntries chain = w.finalEntries chain := by
    unfold finalEntries TxWallet.entries
    rw [relisted.mapWallet]
  have each : (w.finalEntries chain).map (next.movementTotal chain nMinDepth) =
      (w.finalEntries chain).map fun entry =>
        w.movementTotal chain nMinDepth entry - w.countedLess next chain nMinDepth entry :=
    List.map_congr_left fun entry member => relisted.movementTotal_eq (List.mem_of_mem_filter member)
  rw [accountTotal, same, each, sum_map_sub, accountTotal]
  omega

end TxWallet

namespace AccountsWallet

/-- The keys that the generator can still make are none that an output of the wallet pays to. -/
def Unpaid (source : KeySource) (wallet : AccountsWallet) : Prop :=
  ∀ keys : CWallet, wallet.keys.GainsKeys source keys → ∀ entry ∈ wallet.txWallet.entries, ∀ txout ∈ entry.2.vout,
    { wallet with keys }.txWallet.isMine txout = wallet.txWallet.isMine txout ∧
      { wallet with keys }.keystore.isMineAddress txout.address = wallet.keystore.isMineAddress txout.address

theorem Extended.relisted {wallet next : AccountsWallet} (extended : wallet.Extended source next)
    (unpaid : wallet.Unpaid source) : wallet.txWallet.Relisted next.txWallet := by
  have keystore : next.keystore = { wallet with keys := next.keys }.keystore := by
    unfold AccountsWallet.keystore
    rw [extended.mapScripts]
  constructor
  case mapWallet => exact extended.mapWallet
  case listed => exact extended.listed
  case mine =>
    intro entry member txout output
    rw [← (unpaid next.keys extended.keys entry member txout output).1]
    exact congrArg (fun keystore : CKeyStore => keystore.isMine txout.scriptPubKey) keystore
  case address =>
    intro entry member txout output
    have same := (unpaid next.keys extended.keys entry member txout output).2
    exact (congrArg (fun keystore : CKeyStore => keystore.isMineAddress txout.address) keystore).trans same

end AccountsWallet

end

/-- Where all transactions are final, listaccounts gives every account the balance of GetAccountBalance;
the balances of all accounts add up to what GetAmounts gives for the final transactions and to the
accounting entries; movecmd keeps this total, where the file takes both of its entries or none, and
setaccount lowers it by the change of sent transactions that it makes count as sent only. -/
theorem accounts_partition [Hashing] [ScriptDigests] (chain : MainChain) (nMinDepth : Int) :
    (∀ (w : TxWallet) (entries : AccountingEntries) (balances : Std.ExtTreeMap String Int) (strAccount : String)
      (nBalance : Int), (∀ entry ∈ w.entries, entry.2.isFinalNow chain = true) → strAccount ≠ "*" →
      w.listAccounts chain entries nMinDepth = .ok balances →
      w.getAccountBalance chain entries strAccount nMinDepth = .ok nBalance →
      TxWallet.balanceIn balances strAccount = nBalance) ∧
    (∀ (w : TxWallet) (entries : AccountingEntries) (accounts : Finset String) (balance : String → Int),
      (∀ name ∈ w.knownAccounts entries, name ∈ accounts) → "*" ∉ accounts →
      (∀ name ∈ accounts, w.getAccountBalance chain entries name nMinDepth = .ok (balance name)) →
      ∑ name ∈ accounts, balance name = w.accountTotal chain entries nMinDepth) ∧
    (∀ (w : TxWallet) (entries : AccountingEntries) (answers : MoveAnswers) (strFrom strTo : String) (nAmount : Int),
      answers.fDebitWritten = answers.fCreditWritten →
      w.accountTotal chain (entries.movecmd answers strFrom strTo nAmount).1 nMinDepth =
        w.accountTotal chain entries nMinDepth) ∧
    (∀ (source : KeySource) (wallet : AccountsWallet) (entries : AccountingEntries) (address : CTxDestination)
      (strAccount : String), wallet.Unpaid source →
      (wallet.setaccount source address strAccount).1.txWallet.accountTotal chain entries nMinDepth =
        wallet.txWallet.accountTotal chain entries nMinDepth - ((wallet.txWallet.finalEntries chain).map
          (wallet.txWallet.countedLess (wallet.setaccount source address strAccount).1.txWallet chain nMinDepth)).sum) := by
  refine ⟨?_, ?_, ?_, ?_⟩
  · intro w entries balances strAccount nBalance final named table run
    have all : w.finalEntries chain = w.entries := List.filter_eq_self.mpr final
    rw [TxWallet.listAccounts_eq table, TxWallet.getAccountBalance_eq named run, all]
  · intro w entries accounts balance known named each
    exact TxWallet.sum_getAccountBalance known named each
  · intro w entries answers strFrom strTo nAmount both
    rw [TxWallet.accountTotal, TxWallet.accountTotal, AccountingEntries.movecmd_sum both]
  · intro source wallet entries address strAccount unpaid
    have extended := wallet.setaccount_extended source address strAccount
    exact (extended.relisted unpaid).accountTotal_eq entries

namespace Sample

def noKeys : KeySource := ⟨0, fun _ => ⟨false, .empty, false, false, false⟩⟩

/-- The wallet `payerWallet` as setaccount sees it. -/
def payerAccounts : AccountsWallet where
  keys := ⟨∅, ∅, [0], .empty, false, true, 0⟩
  mapScripts := ∅
  mapAddressBook := ∅
  mapWallet := payerWallet.mapWallet
  mapAccounts := ∅

theorem payerAccounts_unpaid : payerAccounts.Unpaid noKeys := by
  intro keys gains entry member txout output
  have scripts : ∀ entry ∈ payerAccounts.txWallet.entries, ∀ txout ∈ entry.2.vout,
      txout.scriptPubKey = toKeyZero ∨ txout.scriptPubKey = [] := by decide +kernel
  have zero : (0 : CKeyID) ∈ keys.mapKeys := gains.kept List.mem_cons_self
  rcases scripts entry member txout output with own | foreign
  · have mine : ∀ haveKey : CKeyID → Bool, (CKeyStore.mk haveKey ∅).isMine toKeyZero = haveKey 0 := fun _ => rfl
    have address : txout.address = .CKeyID 0 := by
      rw [CTxOut.address, own]
      decide
    have before : payerAccounts.txWallet.keystore.isMine toKeyZero = true := by decide
    rw [TxWallet.isMine, TxWallet.isMine, own, address]
    constructor
    · exact (mine _).trans ((decide_eq_true zero).trans before.symm)
    · exact decide_eq_true zero
  · have mine : ∀ haveKey : CKeyID → Bool, (CKeyStore.mk haveKey ∅).isMine [] = false := fun _ => rfl
    have address : txout.address = .CNoDestination := by
      rw [CTxOut.address, foreign]
      decide
    rw [TxWallet.isMine, TxWallet.isMine, foreign, address]
    exact ⟨(mine _).trans (mine _).symm, rfl⟩

/-- A transaction that is not final before block 10. -/
def lockedIncome : CWalletTx := .ofTransaction ⟨1, [⟨⟨1, 0⟩, [], 0⟩], [⟨50, toKeyZero⟩], 10, []⟩

end Sample

open Sample in
/-- Listing the address that change went to: 25 more count as sent. -/
theorem accounts_partition_payer :
    (payerAccounts.setaccount noKeys (.CKeyID 0) "savings").1.txWallet.accountTotal oneBlock [⟨"", 3⟩] 2 = -47 ∧
      payerAccounts.txWallet.accountTotal oneBlock [⟨"", 3⟩] 2 = -22 := by
  have moved := (accounts_partition oneBlock 2).2.2.2 noKeys payerAccounts [⟨"", 3⟩] (.CKeyID 0) "savings"
    payerAccounts_unpaid
  have before : payerAccounts.txWallet.accountTotal oneBlock [⟨"", 3⟩] 2 = -22 := by decide +kernel
  refine ⟨?_, before⟩
  rw [moved, before]
  decide +kernel

open Sample in
/-- A transaction that is not final shows in listaccounts only, and listing an address to which change
went lowers the total. -/
theorem accounts_partition_fails :
    (¬ ∀ (chain : MainChain) (nMinDepth : Int) (w : TxWallet) (entries : AccountingEntries)
      (balances : Std.ExtTreeMap String Int) (strAccount : String) (nBalance : Int),
      w.listAccounts chain entries nMinDepth = .ok balances →
      w.getAccountBalance chain entries strAccount nMinDepth = .ok nBalance →
      TxWallet.balanceIn balances strAccount = nBalance) ∧
    ¬ ∀ (chain : MainChain) (nMinDepth : Int) (source : KeySource) (wallet : AccountsWallet)
      (entries : AccountingEntries) (address : CTxDestination) (strAccount : String), wallet.Unpaid source →
      (wallet.setaccount source address strAccount).1.txWallet.accountTotal chain entries nMinDepth =
        wallet.txWallet.accountTotal chain entries nMinDepth := by
  constructor
  · intro agree
    have same := agree oneBlock 0 (walletOf [lockedIncome]) []
      ((walletOf [lockedIncome]).listAccounts oneBlock [] 0 |>.toOption.getD ∅) "" 0 (by decide +kernel)
      (by decide)
    exact absurd same (by decide +kernel)
  · intro keeps
    have same := keeps oneBlock 2 noKeys payerAccounts [] (.CKeyID 0) "savings" payerAccounts_unpaid
    exact absurd same (by decide +kernel)

end BitCrystal
