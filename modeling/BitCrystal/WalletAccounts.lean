import BitCrystal.Data.Sums
import BitCrystal.Data.Tables
import BitCrystal.WalletAmounts

namespace BitCrystal

open Data

/-! # The accounts of the wallet partition its amounts -/

theorem sumInt64_eq {values : List Int} {sum : Int} (run : sumInt64 values = .ok sum) : sum = values.sum := by
  have total := foldlM_sum id (fun value _ state next step => (addInt64_eq_ok.mp step).2.symm) run
  rw [total, zero_add, List.map_id]

section

variable [ScriptDigests] {w : TxWallet} {wtx : CWalletTx} {amounts : Amounts} {strAccount : String}

/-! ## One transaction -/

namespace Amounts

omit [ScriptDigests] in
def receivedBy (amounts : Amounts) (w : TxWallet) (strAccount : String) : Int :=
  ((amounts.listReceived.filter fun received => w.accountOf received.1 = strAccount).map Prod.snd).sum

omit [ScriptDigests] in
def paid (amounts : Amounts) : Int := (amounts.listSent.map Prod.snd).sum + amounts.nFee

omit [ScriptDigests] in
/-- What a transaction does to the balance of an account; what it receives counts where `deep`. -/
def movement (amounts : Amounts) (w : TxWallet) (deep : Bool) (strAccount : String) : Int :=
  (if deep then amounts.receivedBy w strAccount else 0) -
    if strAccount = amounts.strSentAccount then amounts.paid else 0

end Amounts

namespace CWalletTx

theorem getAmounts_account (run : wtx.getAmounts w = .ok amounts) : amounts.strSentAccount = wtx.strFromAccount := by
  unfold getAmounts at run
  simp only [bind_eq_ok] at run
  obtain ⟨nDebit, -, run⟩ := run
  split at run
  · simp only [bind_eq_ok, pure_eq_ok] at run
    obtain ⟨_, -, rfl⟩ := run
    rfl
  · simp only [ok_bind, pure_eq_ok] at run
    rw [← run]

theorem getAccountAmounts_eq {nReceived nSent nFee : Int}
    (run : wtx.getAccountAmounts w strAccount = .ok (nReceived, nSent, nFee)) :
    ∃ amounts, wtx.getAmounts w = .ok amounts ∧ nReceived = amounts.receivedBy w strAccount ∧
      nSent + nFee = if strAccount = amounts.strSentAccount then amounts.paid else 0 := by
  unfold getAccountAmounts at run
  simp only [bind_eq_ok] at run
  obtain ⟨amounts, computed, run⟩ := run
  refine ⟨amounts, computed, ?_⟩
  by_cases sender : strAccount = amounts.strSentAccount
  · simp only [if_pos sender, bind_eq_ok, pure_eq_ok, Prod.mk.injEq] at run
    obtain ⟨sent, summed, received, booked, rfl, rfl, rfl⟩ := run
    rw [if_pos sender, sumInt64_eq booked, sumInt64_eq summed]
    exact ⟨rfl, rfl⟩
  · simp only [if_neg sender, ok_bind, bind_eq_ok, pure_eq_ok, Prod.mk.injEq] at run
    obtain ⟨received, booked, rfl, rfl, rfl⟩ := run
    rw [if_neg sender, sumInt64_eq booked]
    exact ⟨rfl, rfl⟩

end CWalletTx

/-! ## The balance of one account -/

variable [Hashing] {chain : MainChain} {entries : AccountingEntries} {nMinDepth : Int}

namespace TxWallet

/-- What a transaction of the wallet does to the balance of an account; nothing where GetAmounts throws. -/
def movement (w : TxWallet) (chain : MainChain) (nMinDepth : Int) (strAccount : String)
    (entry : UInt256 × CWalletTx) : Int :=
  match entry.2.getAmounts w with
  | .error _ => 0
  | .ok amounts => amounts.movement w (nMinDepth ≤ entry.2.getDepthInMainChain chain) strAccount

theorem movement_of {entry : UInt256 × CWalletTx} (computed : entry.2.getAmounts w = .ok amounts) :
    w.movement chain nMinDepth strAccount entry =
      amounts.movement w (nMinDepth ≤ entry.2.getDepthInMainChain chain) strAccount := by
  rw [movement, computed]

/-- The entries that GetAccountBalance looks at. -/
def finalEntries (w : TxWallet) (chain : MainChain) : List (UInt256 × CWalletTx) :=
  w.entries.filter fun entry => entry.2.isFinalNow chain

def creditDebit (entries : AccountingEntries) (strAccount : String) : Int :=
  ((entries.filter fun entry => entry.strAccount = strAccount).map CAccountingEntry.nCreditDebit).sum

theorem getAccountBalance_eq (named : strAccount ≠ "*") {nBalance : Int}
    (run : w.getAccountBalance chain entries strAccount nMinDepth = .ok nBalance) :
    nBalance = ((w.finalEntries chain).map (w.movement chain nMinDepth strAccount)).sum +
      creditDebit entries strAccount := by
  simp only [getAccountBalance, bind_eq_ok, addInt64_eq_ok] at run
  obtain ⟨nTallied, tally, nCreditDebit, credited, _, rfl⟩ := run
  have internal : nCreditDebit = creditDebit entries strAccount := by
    rw [AccountingEntries.getAccountCreditDebit, AccountingEntries.listAccountCreditDebit, if_neg named] at credited
    exact sumInt64_eq credited
  have tallied : nTallied = ((w.finalEntries chain).map (w.movement chain nMinDepth strAccount)).sum := by
    rw [finalEntries, sum_map_filter, ← zero_add (List.sum _)]
    refine foldlM_sum _ (fun entry _ nBefore nAfter step => ?_) tally
    unfold addAccountBalance at step
    cases final : entry.2.isFinalNow chain with
    | false =>
        rw [final] at step
        cases step
        simp
    | true =>
        rw [final] at step
        simp only [Bool.not_true, Bool.false_eq_true, if_false, bind_eq_ok] at step
        obtain ⟨⟨nReceived, nSent, nFee⟩, parts, step⟩ := step
        obtain ⟨amounts, computed, gained, lost⟩ := CWalletTx.getAccountAmounts_eq parts
        have credited : ∃ nBetween, nBetween = nBefore +
            (if nMinDepth ≤ entry.2.getDepthInMainChain chain then amounts.receivedBy w strAccount else 0) ∧
            (addInt64 nSent nFee >>= subInt64 nBetween) = .ok nAfter := by
          by_cases counted : nReceived ≠ 0 ∧ nMinDepth ≤ entry.2.getDepthInMainChain chain
          · simp only [if_pos counted, bind_eq_ok] at step
            obtain ⟨nBetween, received, rest⟩ := step
            refine ⟨nBetween, ?_, bind_eq_ok.mpr rest⟩
            rw [if_pos counted.2, ← gained]
            exact (addInt64_eq_ok.mp received).2.symm
          · simp only [if_neg counted, ok_bind] at step
            refine ⟨nBefore, ?_, step⟩
            split
            · rename_i deep
              have none : nReceived = 0 := by
                by_contra some
                exact counted ⟨some, deep⟩
              rw [← gained, none, add_zero]
            · exact (add_zero _).symm
        obtain ⟨nBetween, between, rest⟩ := credited
        obtain ⟨nPaid, paid, taken⟩ := bind_eq_ok.mp rest
        obtain ⟨_, rfl⟩ := addInt64_eq_ok.mp paid
        obtain ⟨_, rfl⟩ := subInt64_eq_ok.mp taken
        simp only [if_true, movement_of computed, Amounts.movement, decide_eq_true_eq]
        rw [lost, between]
        omega
  rw [tallied, internal]

/-! ## The table of listaccounts -/

/-- The balance of an account in the table; one that is not listed has none. -/
def balanceIn (balances : Std.ExtTreeMap String Int) (strAccount : String) : Int :=
  balances[strAccount]?.getD 0

omit [ScriptDigests] [Hashing] in
theorem credit_lookup {balances next : Std.ExtTreeMap String Int} {name : String} {nAmount : Int}
    (run : credit balances name nAmount = .ok next) (other : String) :
    balanceIn next other = balanceIn balances other + if name = other then nAmount else 0 := by
  simp only [credit, bind_eq_ok, addInt64_eq_ok, pure_eq_ok] at run
  obtain ⟨_, ⟨_, rfl⟩, rfl⟩ := run
  unfold balanceIn
  rw [lookup_insert]
  by_cases same : other = name
  · simp [same]
  · simp [same, Ne.symm same]

omit [ScriptDigests] [Hashing] in
theorem debit_lookup {balances next : Std.ExtTreeMap String Int} {name : String} {nAmount : Int}
    (run : debit balances name nAmount = .ok next) (other : String) :
    balanceIn next other = balanceIn balances other + if name = other then -nAmount else 0 := by
  simp only [debit, bind_eq_ok, subInt64_eq_ok, pure_eq_ok] at run
  obtain ⟨_, ⟨_, rfl⟩, rfl⟩ := run
  unfold balanceIn
  rw [lookup_insert]
  by_cases same : other = name
  · simp [same, sub_eq_add_neg]
  · simp [same, Ne.symm same]

omit [Hashing] [ScriptDigests] in
theorem ownAccounts_lookup [ScriptDigests] (w : TxWallet) (strAccount : String) :
    balanceIn w.ownAccounts strAccount = 0 := by
  unfold ownAccounts
  have kept : ∀ (book : List (CTxDestination × String)) (balances : Std.ExtTreeMap String Int),
      balanceIn balances strAccount = 0 →
      balanceIn (book.foldl (fun balances entry =>
        if w.keystore.isMineAddress entry.1 then balances.insert entry.2 0 else balances) balances) strAccount = 0 := by
    intro book
    induction book with
    | nil => exact fun _ zero => zero
    | cons entry rest ih =>
        intro balances zero
        rw [List.foldl_cons]
        apply ih
        by_cases mine : w.keystore.isMineAddress entry.1
        · rw [if_pos mine, balanceIn, lookup_insert]
          split
          · rfl
          · exact zero
        · rw [if_neg mine]
          exact zero
  exact kept _ ∅ (by simp [balanceIn])

theorem addAccounts_lookup {balances next : Std.ExtTreeMap String Int} {entry : UInt256 × CWalletTx}
    (run : addAccounts chain w nMinDepth balances entry = .ok next) (strAccount : String) :
    balanceIn next strAccount = balanceIn balances strAccount + w.movement chain nMinDepth strAccount entry := by
  simp only [addAccounts, bind_eq_ok] at run
  obtain ⟨amounts, computed, afterFee, fee, afterSent, sent, run⟩ := run
  have feePaid := debit_lookup fee strAccount
  have sentPaid := foldlM_measure (balanceIn · strAccount)
    (fun paid : CTxDestination × Int => if amounts.strSentAccount = strAccount then -paid.2 else 0)
    (fun paid _ state next step => debit_lookup step strAccount) sent
  have paid : balanceIn afterSent strAccount = balanceIn balances strAccount -
      if strAccount = amounts.strSentAccount then amounts.paid else 0 := by
    by_cases sender : strAccount = amounts.strSentAccount
    · have negated := List.sum_neg (amounts.listSent.map Prod.snd)
      rw [List.map_map] at negated
      simp only [sender, if_true] at feePaid sentPaid ⊢
      rw [sentPaid, feePaid, Amounts.paid]
      simp only [Function.comp_def] at negated
      omega
    · simp only [Ne.symm sender, sender, if_false, List.sum_map_zero] at feePaid sentPaid ⊢
      omega
  rw [movement_of computed]
  unfold Amounts.movement
  split at run
  · rename_i deep
    have gained := foldlM_measure (balanceIn · strAccount)
      (fun received : CTxDestination × Int => if w.accountOf received.1 = strAccount then received.2 else 0)
      (fun received _ state next step => credit_lookup step strAccount) run
    have booked : amounts.receivedBy w strAccount = (amounts.listReceived.map fun received =>
        if w.accountOf received.1 = strAccount then received.2 else 0).sum := by
      rw [Amounts.receivedBy, sum_map_filter]
      simp only [decide_eq_true_eq]
    simp only [deep, decide_true, if_true]
    rw [gained, paid, ← booked]
    omega
  · rename_i shallow
    cases run
    simp only [shallow, decide_false, Bool.false_eq_true, if_false]
    rw [paid]
    omega

theorem listAccounts_eq {balances : Std.ExtTreeMap String Int}
    (run : w.listAccounts chain entries nMinDepth = .ok balances) (strAccount : String) :
    balanceIn balances strAccount = (w.entries.map (w.movement chain nMinDepth strAccount)).sum +
      creditDebit entries strAccount := by
  simp only [listAccounts, bind_eq_ok] at run
  obtain ⟨tallied, transactions, internal⟩ := run
  have moved := foldlM_measure (balanceIn · strAccount) (w.movement chain nMinDepth strAccount)
    (fun entry _ state next step => addAccounts_lookup step strAccount) transactions
  have credited := foldlM_measure (balanceIn · strAccount)
    (fun entry : CAccountingEntry => if entry.strAccount = strAccount then entry.nCreditDebit else 0)
    (fun entry _ state next step => credit_lookup step strAccount) internal
  have all : AccountingEntries.listAccountCreditDebit entries "*" = entries := if_pos rfl
  have booked : creditDebit entries strAccount =
      (entries.map fun entry => if entry.strAccount = strAccount then entry.nCreditDebit else 0).sum := by
    rw [creditDebit, sum_map_filter]
    simp only [decide_eq_true_eq]
  rw [credited, moved, ownAccounts_lookup, all, ← booked, zero_add]

/-! ## All accounts together -/

/-- What a transaction does to the balances of all accounts. -/
def movementTotal (w : TxWallet) (chain : MainChain) (nMinDepth : Int) (entry : UInt256 × CWalletTx) : Int :=
  match entry.2.getAmounts w with
  | .error _ => 0
  | .ok amounts =>
      (if nMinDepth ≤ entry.2.getDepthInMainChain chain then (amounts.listReceived.map Prod.snd).sum else 0) -
        (amounts.listSent.map Prod.snd).sum - amounts.nFee

/-- Received minus sent minus fee of the final transactions, and all accounting entries. -/
def accountTotal (w : TxWallet) (chain : MainChain) (entries : AccountingEntries) (nMinDepth : Int) : Int :=
  ((w.finalEntries chain).map (w.movementTotal chain nMinDepth)).sum +
    (entries.map CAccountingEntry.nCreditDebit).sum

/-- The accounts of the address book, of the transactions and of the accounting entries. -/
def knownAccounts (w : TxWallet) (entries : AccountingEntries) : List String :=
  "" :: (w.mapAddressBook.toList.map Prod.snd ++ w.entries.map (fun entry => entry.2.strFromAccount) ++
    entries.map CAccountingEntry.strAccount)

omit [ScriptDigests] [Hashing] in
theorem accountOf_known (w : TxWallet) (entries : AccountingEntries) (address : CTxDestination) :
    w.accountOf address ∈ w.knownAccounts entries := by
  unfold accountOf knownAccounts
  cases found : w.mapAddressBook[address]? with
  | none => exact List.mem_cons_self
  | some name =>
      have inBook := Std.ExtTreeMap.mem_toList_iff_getElem?_eq_some.mpr found
      have named : name ∈ w.mapAddressBook.toList.map Prod.snd := List.mem_map_of_mem inBook
      simp [named]

theorem sum_movement {accounts : Finset String} (known : ∀ name ∈ w.knownAccounts entries, name ∈ accounts)
    {entry : UInt256 × CWalletTx} (member : entry ∈ w.entries) :
    ∑ name ∈ accounts, w.movement chain nMinDepth name entry = w.movementTotal chain nMinDepth entry := by
  unfold movement movementTotal
  cases computed : entry.2.getAmounts w with
  | error failure => simp
  | ok amounts =>
      have sender : amounts.strSentAccount ∈ accounts := by
        apply known
        rw [CWalletTx.getAmounts_account computed]
        have sent := List.mem_map_of_mem (f := fun entry : UInt256 × CWalletTx => entry.2.strFromAccount) member
        simp [knownAccounts, sent]
      have received : ∑ name ∈ accounts, amounts.receivedBy w name = (amounts.listReceived.map Prod.snd).sum :=
        sum_fibers _ _ fun received _ => known _ (w.accountOf_known entries received.1)
      have paid : ∑ name ∈ accounts, (if name = amounts.strSentAccount then amounts.paid else 0) = amounts.paid := by
        rw [Finset.sum_ite_eq' accounts amounts.strSentAccount fun _ => amounts.paid, if_pos sender]
      simp only [Amounts.movement, Finset.sum_sub_distrib, paid, decide_eq_true_eq]
      split
      · rw [received, Amounts.paid]
        omega
      · rw [Finset.sum_const_zero, Amounts.paid]
        omega

theorem sum_getAccountBalance {accounts : Finset String} {balance : String → Int}
    (known : ∀ name ∈ w.knownAccounts entries, name ∈ accounts) (named : "*" ∉ accounts)
    (each : ∀ name ∈ accounts, w.getAccountBalance chain entries name nMinDepth = .ok (balance name)) :
    ∑ name ∈ accounts, balance name = w.accountTotal chain entries nMinDepth := by
  have balances : ∀ name ∈ accounts, balance name =
      ((w.finalEntries chain).map (w.movement chain nMinDepth name)).sum + creditDebit entries name := by
    intro name member
    exact getAccountBalance_eq (fun star => named (star ▸ member)) (each name member)
  have moved : ∑ name ∈ accounts, ((w.finalEntries chain).map (w.movement chain nMinDepth name)).sum =
      ((w.finalEntries chain).map (w.movementTotal chain nMinDepth)).sum := by
    rw [sum_comm_list]
    congr 1
    apply List.map_congr_left
    intro entry member
    exact sum_movement known (List.mem_of_mem_filter member)
  have credited : ∑ name ∈ accounts, creditDebit entries name = (entries.map CAccountingEntry.nCreditDebit).sum := by
    apply sum_fibers
    intro entry member
    have booked := List.mem_map_of_mem (f := CAccountingEntry.strAccount) member
    exact known _ (by simp [knownAccounts, booked])
  rw [Finset.sum_congr rfl balances, Finset.sum_add_distrib, moved, credited, accountTotal]

end TxWallet

end

end BitCrystal
