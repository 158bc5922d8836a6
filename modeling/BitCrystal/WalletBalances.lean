import BitCrystal.Data.Sums
import BitCrystal.WalletAmounts
import BitCrystal.WalletTracking

namespace BitCrystal

open Data

/-! # The two total balances of the wallet -/

section

variable [ScriptDigests] {w : TxWallet} {wtx : CWalletTx} {tx : CTransaction}

/-! ## What the amounts of one transaction add up to -/

namespace TxWallet

def ownValue (w : TxWallet) (txout : CTxOut) : Int := if w.isMine txout then txout.value else 0

/-- What the inputs take from the coins of the wallet. -/
def debitTotal (w : TxWallet) (tx : CTransaction) : Int := (tx.vin.map w.getDebitOf).sum

/-- What a transaction that the wallet has sent pays to change addresses that the wallet cannot spend from. -/
def foreignChange (w : TxWallet) (tx : CTransaction) : Int :=
  if 0 < w.debitTotal tx then
    ((tx.vout.filter fun txout => w.isChange txout && !w.isMine txout).map CTxOut.value).sum
  else 0

omit [ScriptDigests] in
@[simp] theorem addAmount_eq_ok {α : Type} {amount : α → Except Failure Int} {what : String} {nSum next : Int}
    {part : α} : addAmount amount what nSum part = .ok next ↔
      ∃ nAmount, amount part = .ok nAmount ∧ int64Range (nSum + nAmount) ∧ moneyRange (nSum + nAmount) = true ∧
        nSum + nAmount = next := by
  simp only [addAmount, bind_eq_ok, addInt64_eq_ok, require_eq_ok, pure_eq_ok, exists_const]
  constructor
  · rintro ⟨nAmount, computed, _, ⟨range, rfl⟩, money, rfl⟩
    exact ⟨nAmount, computed, range, money, rfl⟩
  · rintro ⟨nAmount, computed, range, money, rfl⟩
    exact ⟨nAmount, computed, _, ⟨range, rfl⟩, money, rfl⟩

theorem getDebit_total {nDebit : Int} (run : w.getDebit tx = .ok nDebit) :
    nDebit = w.debitTotal tx ∧ 0 ≤ nDebit := by
  constructor
  · have sum := foldlM_sum w.getDebitOf (fun txin _ state next step => ?_) run
    · rw [sum, zero_add, debitTotal]
    · obtain ⟨nAmount, computed, _, _, added⟩ := addAmount_eq_ok.mp step
      cases computed
      exact added.symm
  · have kept : ∀ state txin (rest : List CTxIn), 0 ≤ state →
        Sat (addAmount (fun txin => .ok (w.getDebitOf txin)) "CWallet::GetDebit() : value out of range" state txin)
          (fun next => 0 ≤ next) (fun _ => True) := by
      intro state txin rest _
      cases step : addAmount (fun txin => .ok (w.getDebitOf txin))
          "CWallet::GetDebit() : value out of range" state txin with
      | error failure => trivial
      | ok next =>
          obtain ⟨_, _, _, money, rfl⟩ := addAmount_eq_ok.mp step
          exact (moneyRange_iff.mp money).1
    exact (Sat.foldlM (fun state _ => 0 ≤ state) kept tx.vin 0 (Int.le_refl 0)).of_ok run

theorem net_outputs (w : TxWallet) (vout : List CTxOut) :
    (((vout.filter fun txout => !w.isChange txout).filter w.isMine).map CTxOut.value).sum -
        ((vout.filter fun txout => !w.isChange txout).map CTxOut.value).sum + (vout.map CTxOut.value).sum =
      (vout.map w.ownValue).sum +
        ((vout.filter fun txout => w.isChange txout && !w.isMine txout).map CTxOut.value).sum := by
  induction vout with
  | nil => rfl
  | cons txout rest ih =>
      cases change : w.isChange txout <;> cases mine : w.isMine txout <;>
        simp [change, mine, ownValue, -List.filter_filter] <;> omega

end TxWallet

namespace CWalletTx

theorem Current.getDebit_answer (current : wtx.Current w) : (wtx.getDebit w).2 = w.getDebit wtx.toCTransaction := by
  unfold CWalletTx.getDebit
  split
  · rename_i empty
    rw [TxWallet.getDebit, empty]
    rfl
  · exact current.debit.read_answer

theorem Current.getAmounts_net (current : wtx.Current w) {amounts : Amounts} (run : wtx.getAmounts w = .ok amounts) :
    (amounts.listReceived.map Prod.snd).sum - (amounts.listSent.map Prod.snd).sum - amounts.nFee =
      (wtx.vout.map w.ownValue).sum + w.foreignChange wtx.toCTransaction - w.debitTotal wtx.toCTransaction := by
  unfold getAmounts at run
  rw [current.getDebit_answer] at run
  simp only [bind_eq_ok] at run
  obtain ⟨nDebit, debited, run⟩ := run
  obtain ⟨total, nonneg⟩ := TxWallet.getDebit_total debited
  have values : ∀ outputs : List CTxOut,
      List.map (Prod.snd ∘ fun txout : CTxOut => (txout.address, txout.value)) outputs = outputs.map CTxOut.value :=
    fun outputs => rfl
  by_cases sent : 0 < nDebit
  · simp only [if_pos sent, bind_eq_ok, subInt64_eq_ok, pure_eq_ok] at run
    obtain ⟨nFee, ⟨nValueOut, valueOut, _, rfl⟩, rfl⟩ := run
    have all := CTransaction.getValueOut_eq valueOut
    have net := w.net_outputs wtx.vout
    have selected : 0 < w.debitTotal wtx.toCTransaction := total ▸ sent
    simp only [sent, decide_true, Bool.true_and, if_true, List.map_map, values, TxWallet.foreignChange, selected]
    omega
  · simp only [if_neg sent, ok_bind, pure_eq_ok] at run
    subst run
    have none : ¬ 0 < w.debitTotal wtx.toCTransaction := total ▸ sent
    have zero : nDebit = 0 := by omega
    have keep : (wtx.vout.filter fun _ => true) = wtx.vout := List.filter_eq_self.mpr fun _ _ => rfl
    simp only [sent, decide_false, Bool.false_and, Bool.not_false, keep, if_false, List.map_map, values,
      TxWallet.foreignChange, none, List.map_nil, List.sum_nil]
    rw [sum_map_filter]
    have own : (fun txout => if w.isMine txout = true then txout.value else 0) = w.ownValue := rfl
    rw [own]
    omega

end CWalletTx

end

/-! ## What the confirmed transactions spend -/

section

variable [Hashing] [ScriptDigests]

namespace TxWallet

variable (w : TxWallet) (chain : MainChain) (fuel : Nat)

def confirmed : List (UInt256 × CWalletTx) :=
  w.entries.filter fun entry => entry.2.isConfirmed chain w fuel = .ok true

/-- A confirmed transaction spends output `nOut` of the transaction with the given hash. -/
def spentByConfirmed (hash : UInt256) (nOut : Nat) : Bool :=
  (w.confirmed chain fuel).any fun entry =>
    entry.2.vin.any fun txin => txin.prevout.hash = hash && txin.prevout.n.toNat = nOut

/-- An own output is flagged as spent exactly where a confirmed transaction spends it. -/
def SpentExact : Prop :=
  ∀ entry ∈ w.entries, ∀ output ∈ entry.2.vout.zipIdx, w.isMine output.1 = true →
    entry.2.isSpent output.2 = w.spentByConfirmed chain fuel entry.1 output.2

def spentOf (entry : UInt256 × CWalletTx) : Int :=
  ((entry.2.vout.zipIdx.filter fun output => w.spentByConfirmed chain fuel entry.1 output.2).map
    fun output => w.ownValue output.1).sum

def unspentOf (entry : UInt256 × CWalletTx) : Int :=
  ((entry.2.vout.zipIdx.filter fun output => !w.spentByConfirmed chain fuel entry.1 output.2).map
    fun output => w.ownValue output.1).sum

/-- The unspent own outputs of the confirmed coinbases that have not matured. -/
def immatureUnspent : Int :=
  (((w.confirmed chain fuel).filter fun entry => entry.2.immature chain).map (w.unspentOf chain fuel)).sum

def foreignChangeTotal : Int :=
  ((w.confirmed chain fuel).map fun entry => w.foreignChange entry.2.toCTransaction).sum

/-- By how much the own inputs of confirmed transactions exceed the own outputs of confirmed
transactions that they spend. -/
def excess : Int :=
  ((w.confirmed chain fuel).map fun entry => w.debitTotal entry.2.toCTransaction).sum -
    ((w.confirmed chain fuel).map (w.spentOf chain fuel)).sum

variable {w chain fuel}

theorem spentOf_add_unspentOf (entry : UInt256 × CWalletTx) :
    w.spentOf chain fuel entry + w.unspentOf chain fuel entry = (entry.2.vout.map w.ownValue).sum := by
  have all := sum_filter_add_not (fun output : CTxOut × Nat => w.spentByConfirmed chain fuel entry.1 output.2)
    (fun output => w.ownValue output.1) entry.2.vout.zipIdx
  have outputs : (entry.2.vout.zipIdx.map fun output => w.ownValue output.1) = entry.2.vout.map w.ownValue := by
    rw [← Function.comp_def w.ownValue Prod.fst, ← List.map_map, List.zipIdx_map_fst]
  rw [spentOf, unspentOf, all, outputs]

omit [Hashing] [ScriptDigests] in
theorem mem_entries {entry : UInt256 × CWalletTx} : entry ∈ w.entries ↔ w.mapWallet[entry.1]? = some entry.2 :=
  Std.ExtTreeMap.mem_toList_iff_getElem?_eq_some

theorem sumAvailable_total (exact : w.SpentExact chain fuel) {entry : UInt256 × CWalletTx} (member : entry ∈ w.entries)
    {nCredit : Int} (run : entry.2.sumAvailable w = .ok nCredit) : nCredit = w.unspentOf chain fuel entry := by
  rw [unspentOf, sum_map_filter, ← zero_add (List.sum _)]
  refine foldlM_sum _ (fun output inside nSum next step => ?_) run
  have flagged := exact entry member output inside
  split at step
  · rename_i spent
    cases step
    cases mine : w.isMine output.1 with
    | false => simp [ownValue, mine]
    | true => simp [← flagged mine, spent]
  · rename_i unspent
    obtain ⟨nAmount, credit, _, _, rfl⟩ := addAmount_eq_ok.mp step
    simp only [getCreditOf, bind_eq_ok, require_eq_ok, exists_const, pure_eq_ok] at credit
    obtain ⟨_, rfl⟩ := credit
    cases mine : w.isMine output.1 with
    | false => simp [ownValue, mine]
    | true => simp [← flagged mine, unspent, ownValue, mine]

end TxWallet

/-! ## Testing the maturity -/

omit [ScriptDigests] in
theorem CMerkleTx.depth_verified {tx after : CMerkleTx} {chain : MainChain}
    (same : after = { tx with fMerkleVerified := tx.verifies chain }) :
    after.getDepthInMainChain chain = tx.getDepthInMainChain chain := by
  have claims : after.claimedBlock chain = tx.claimedBlock chain := by rw [same]; rfl
  unfold getDepthInMainChain
  rw [claims]
  cases claimed : tx.claimedBlock chain with
  | none => rfl
  | some pindex =>
      have connected : after.connects pindex = tx.connects pindex := by
        have verified : tx.verifies chain = tx.connects pindex := by
          rw [verifies, claimed, Option.any_some, connects, ← Bool.or_assoc, Bool.or_self]
        rw [same, connects, verified, connects]
        exact (Bool.or_assoc _ _ _).trans (by rw [Bool.or_self])
      simp only [connected]

omit [ScriptDigests] in
theorem CWalletTx.tested_immature (wtx : CWalletTx) (chain : MainChain) :
    (wtx.tested chain).immature chain = wtx.immature chain := by
  unfold CWalletTx.tested
  split
  · have depth : ({ wtx.toCMerkleTx with fMerkleVerified := wtx.verifies chain } : CMerkleTx).getDepthInMainChain
        chain = wtx.getDepthInMainChain chain := CMerkleTx.depth_verified rfl
    simp only [CMerkleTx.immature, CMerkleTx.getBlocksToMaturity, depth]
    rfl
  · rfl

namespace TxWallet

variable {w : TxWallet} {chain : MainChain} {fuel : Nat}

theorem getBalance_total (current : ∀ entry ∈ w.entries, entry.2.Current w) (exact : w.SpentExact chain fuel)
    {nTotal : Int} (run : w.getBalance chain fuel = .ok nTotal) :
    nTotal = (((w.confirmed chain fuel).filter fun entry => !entry.2.immature chain).map
      (w.unspentOf chain fuel)).sum := by
  rw [sum_map_filter, confirmed, sum_map_filter, ← zero_add (List.sum _)]
  refine foldlM_sum _ (fun entry member nSum next step => ?_) run
  simp only [addBalance, bind_eq_ok] at step
  obtain ⟨fConfirmed, answer, step⟩ := step
  cases fConfirmed with
  | false =>
      cases step
      simp [answer]
  | true =>
      obtain ⟨nCredit, credit, step⟩ := bind_eq_ok.mp step
      obtain ⟨_, rfl⟩ := addInt64_eq_ok.mp step
      unfold CWalletTx.getAvailableCredit at credit
      simp only [CWalletTx.tested_immature] at credit
      cases immature : entry.2.immature chain with
      | true =>
          rw [immature] at credit
          cases credit
          simp [answer]
      | false =>
          rw [immature] at credit
          have tested := (current entry member).tested chain
          have computed : (entry.2.tested chain).sumAvailable w = .ok nCredit :=
            tested.available.read_answer.symm.trans credit
          have sum : entry.2.sumAvailable w = .ok nCredit := by
            rw [← computed, CWalletTx.tested_eq]
            rfl
          simp [answer, sumAvailable_total exact member sum]

theorem getBalanceStar_total (current : ∀ entry ∈ w.entries, entry.2.Current w) {nBalance : Int}
    (run : w.getBalanceStar chain fuel 0 = .ok nBalance) :
    nBalance = ((w.confirmed chain fuel).map fun entry => (entry.2.vout.map w.ownValue).sum +
      w.foreignChange entry.2.toCTransaction - w.debitTotal entry.2.toCTransaction).sum := by
  rw [confirmed, sum_map_filter, ← zero_add (List.sum _)]
  refine foldlM_sum _ (fun entry member nSum next step => ?_) run
  simp only [addBalanceStar, bind_eq_ok] at step
  obtain ⟨fConfirmed, answer, step⟩ := step
  cases fConfirmed with
  | false =>
      cases step
      simp [answer]
  | true =>
      obtain ⟨amounts, computed, step⟩ := bind_eq_ok.mp step
      have net := (current entry member).getAmounts_net computed
      rw [if_pos (entry.2.getDepthInMainChain_nonneg chain)] at step
      simp only [bind_eq_ok, subInt64_eq_ok] at step
      obtain ⟨nReceived, received, nSent, sent, _, rfl⟩ := step
      have gained := foldlM_sum id (fun value _ state next added => (addInt64_eq_ok.mp added).2.symm) received
      have paid := foldlM_sum (fun value => -value) (fun value _ state next taken => by
        rw [← (subInt64_eq_ok.mp taken).2, sub_eq_add_neg]) sent
      simp only [answer, decide_true, if_true]
      rw [← net, paid, gained, List.map_id, ← List.sum_neg]
      omega

theorem balances_differ (current : ∀ entry ∈ w.entries, entry.2.Current w) (exact : w.SpentExact chain fuel)
    {nTotal nBalance : Int} (total : w.getBalance chain fuel = .ok nTotal)
    (star : w.getBalanceStar chain fuel 0 = .ok nBalance) :
    nBalance - nTotal = w.immatureUnspent chain fuel + w.foreignChangeTotal chain fuel - w.excess chain fuel := by
  have unspent := sum_filter_add_not (fun entry : UInt256 × CWalletTx => entry.2.immature chain)
    (w.unspentOf chain fuel) (w.confirmed chain fuel)
  have own : ((w.confirmed chain fuel).map fun entry => (entry.2.vout.map w.ownValue).sum).sum =
      ((w.confirmed chain fuel).map (w.spentOf chain fuel)).sum +
        ((w.confirmed chain fuel).map (w.unspentOf chain fuel)).sum := by
    rw [← List.sum_map_add]
    simp only [spentOf_add_unspentOf]
  rw [getBalance_total current exact total, getBalanceStar_total current star, sum_map_sub, List.sum_map_add, own,
    immatureUnspent, foreignChangeTotal, excess, ← unspent]
  omega

end TxWallet

/-! ## Wallets without conflicting spendings -/

/-- The output that an input spends, by the hash of its transaction and its position. -/
def CTxIn.place (txin : CTxIn) : UInt256 × Nat := (txin.prevout.hash, txin.prevout.n.toNat)

namespace TxWallet

variable (w : TxWallet) (chain : MainChain) (fuel : Nat)

omit [Hashing] in
def spendsOwn (txin : CTxIn) : Bool := (w.prevOut txin).any w.isMine

/-- The own outputs that confirmed transactions spend, one for each input. -/
def spendings : List (UInt256 × Nat) :=
  (((w.confirmed chain fuel).flatMap fun entry => entry.2.vin).filter w.spendsOwn).map CTxIn.place

/-- The own outputs of confirmed transactions that confirmed transactions spend, each once. -/
def spentPlaces : List (UInt256 × Nat) :=
  (w.confirmed chain fuel).flatMap fun entry =>
    (entry.2.vout.zipIdx.filter fun output => w.isMine output.1 && w.spentByConfirmed chain fuel entry.1 output.2).map
      fun output => (entry.1, output.2)

/-- No own output is spent by two inputs of confirmed transactions, and those that are spent
belong to confirmed transactions. -/
structure Unconflicted : Prop where
  once : (w.spendings chain fuel).Nodup
  known : ∀ place ∈ w.spendings chain fuel, ∃ entry ∈ w.confirmed chain fuel, entry.1 = place.1

omit [Hashing] in
def valueAt (place : UInt256 × Nat) : Int :=
  (w.mapWallet[place.1]?.bind fun wtx => wtx.vout[place.2]?).elim 0 w.ownValue

variable {w chain fuel}

omit [Hashing] in
theorem getDebitOf_eq (txin : CTxIn) :
    w.getDebitOf txin = if w.spendsOwn txin then w.valueAt txin.place else 0 := by
  have same : w.mapWallet[txin.place.1]?.bind (fun wtx => wtx.vout[txin.place.2]?) = w.prevOut txin := rfl
  unfold getDebitOf spendsOwn valueAt
  rw [same]
  cases found : w.prevOut txin with
  | none => simp
  | some prev => cases mine : w.isMine prev <;> simp [ownValue, mine]

theorem debits_eq : ((w.confirmed chain fuel).map fun entry => w.debitTotal entry.2.toCTransaction).sum =
    ((w.spendings chain fuel).map w.valueAt).sum := by
  have inputs := sum_map_flatMap (fun entry : UInt256 × CWalletTx => entry.2.vin) w.getDebitOf (w.confirmed chain fuel)
  have own : (fun txin => if w.spendsOwn txin then (w.valueAt ∘ CTxIn.place) txin else 0) = w.getDebitOf :=
    funext fun txin => (getDebitOf_eq txin).symm
  rw [spendings, List.map_map, sum_map_filter, own, inputs]
  rfl

omit [Hashing] in
theorem valueAt_of {hash : UInt256} {wtx : CWalletTx} {nOut : Nat} {txout : CTxOut}
    (found : w.mapWallet[hash]? = some wtx) (output : wtx.vout[nOut]? = some txout) :
    w.valueAt (hash, nOut) = w.ownValue txout := by
  simp [valueAt, found, output]

theorem confirmed_found {entry : UInt256 × CWalletTx} (member : entry ∈ w.confirmed chain fuel) :
    w.mapWallet[entry.1]? = some entry.2 :=
  mem_entries.mp (List.mem_of_mem_filter member)

theorem spents_eq : ((w.confirmed chain fuel).map (w.spentOf chain fuel)).sum =
    ((w.spentPlaces chain fuel).map w.valueAt).sum := by
  rw [spentPlaces, sum_map_flatMap]
  congr 1
  apply List.map_congr_left
  intro entry member
  rw [spentOf, List.map_map, sum_map_filter, sum_map_filter]
  congr 1
  apply List.map_congr_left
  intro output inside
  have place : entry.2.vout[output.2]? = some output.1 := List.mem_zipIdx_iff_getElem?.mp inside
  have value := valueAt_of (confirmed_found member) place
  cases mine : w.isMine output.1 with
  | false => simp [ownValue, mine]
  | true => simp [value]

theorem mem_spentPlaces {hash : UInt256} {nOut : Nat} : (hash, nOut) ∈ w.spentPlaces chain fuel ↔
    ∃ wtx txout, (hash, wtx) ∈ w.confirmed chain fuel ∧ wtx.vout[nOut]? = some txout ∧ w.isMine txout = true ∧
      w.spentByConfirmed chain fuel hash nOut = true := by
  simp only [spentPlaces, List.mem_flatMap, List.mem_map, List.mem_filter, Bool.and_eq_true, Prod.mk.injEq,
    Prod.exists, List.mem_zipIdx_iff_getElem?]
  constructor
  · rintro ⟨_, wtx, member, txout, _, ⟨output, mine, spent⟩, rfl, rfl⟩
    exact ⟨wtx, txout, member, output, mine, spent⟩
  · rintro ⟨wtx, txout, member, output, mine, spent⟩
    exact ⟨hash, wtx, member, txout, nOut, ⟨output, mine, spent⟩, rfl, rfl⟩

theorem spentPlaces_nodup : (w.spentPlaces chain fuel).Nodup := by
  rw [spentPlaces, List.nodup_flatMap]
  constructor
  · intro entry _
    have positions : (entry.2.vout.zipIdx.map Prod.snd).Nodup := by
      rw [List.zipIdx_map_snd]
      exact List.nodup_range'
    rw [List.Nodup, List.pairwise_map]
    have apart := List.pairwise_map.mp positions
    refine (apart.filter _).imp fun different same => different ?_
    exact congrArg (fun place : UInt256 × Nat => place.2) same
  · have keys : (w.confirmed chain fuel).Pairwise fun first second => first.1 ≠ second.1 :=
      (List.pairwise_map.mp (toList_keys_nodup w.mapWallet)).filter _
    refine keys.imp fun different => ?_
    intro place first second
    obtain ⟨_, _, rfl⟩ := List.mem_map.mp first
    obtain ⟨_, _, same⟩ := List.mem_map.mp second
    exact different (congrArg Prod.fst same).symm

theorem excess_eq_zero (unconflicted : w.Unconflicted chain fuel) : w.excess chain fuel = 0 := by
  have same : List.Perm (w.spendings chain fuel) (w.spentPlaces chain fuel) := by
    rw [List.perm_ext_iff_of_nodup unconflicted.once spentPlaces_nodup]
    rintro ⟨hash, nOut⟩
    rw [mem_spentPlaces]
    constructor
    · intro member
      obtain ⟨⟨_, wtx⟩, confirmed, rfl⟩ := unconflicted.known _ member
      obtain ⟨txin, selected, same⟩ := List.mem_map.mp member
      obtain ⟨spender, own⟩ := List.mem_filter.mp selected
      obtain ⟨entry, spending, input⟩ := List.mem_flatMap.mp spender
      cases same
      obtain ⟨txout, output, mine⟩ := Option.any_eq_true _ _ |>.mp own
      rw [prevOut, confirmed_found confirmed] at output
      refine ⟨wtx, txout, confirmed, output, mine, ?_⟩
      rw [spentByConfirmed, List.any_eq_true]
      exact ⟨entry, spending, List.any_eq_true.mpr ⟨txin, input, by simp⟩⟩
    · rintro ⟨wtx, txout, confirmed, output, mine, spent⟩
      obtain ⟨entry, spending, spends⟩ := List.any_eq_true.mp spent
      obtain ⟨txin, input, place⟩ := List.any_eq_true.mp spends
      obtain ⟨rfl, rfl⟩ : txin.prevout.hash = hash ∧ txin.prevout.n.toNat = nOut := by simpa using place
      refine List.mem_map.mpr ⟨txin, List.mem_filter.mpr ⟨List.mem_flatMap.mpr ⟨entry, spending, input⟩, ?_⟩, rfl⟩
      rw [spendsOwn, prevOut, confirmed_found confirmed, Option.bind_some, output]
      exact mine
  rw [excess, debits_eq, spents_eq, (same.map w.valueAt).sum_eq, sub_self]

end TxWallet

/-! ## IsConfirmed ends -/

namespace CWalletTx

variable {wtx : CWalletTx} {w : TxWallet} {chain : MainChain}

/-- The transaction and its supporting transactions spend transactions of a smaller rank only; no
transaction spends itself, not even through others. -/
def Ranked (wtx : CWalletTx) (rank : UInt256 → Nat) : Prop :=
  ∀ ptx ∈ wtx.toCMerkleTx :: wtx.vtxPrev, ∀ txin ∈ ptx.vin, rank txin.prevout.hash < rank ptx.getHash

omit [Hashing] in
theorem getDebit_ends (w : TxWallet) (tx : CTransaction) : w.getDebit tx ≠ .error .endless := by
  have ends : Sat (w.getDebit tx) (fun _ => True) (· ≠ .endless) := by
    refine Sat.foldlM (fun _ _ => True) (fun state txin rest _ => ?_) tx.vin 0 trivial
    unfold TxWallet.addAmount addInt64
    rw [ok_bind]
    split
    · rw [ok_bind]
      exact (Sat.require (by decide)).bind fun _ _ => trivial
    · exact Failure.noConfusion
  exact fun endless => ends.of_error endless rfl

omit [Hashing] in
theorem isFromMe_ends (w : TxWallet) (tx : CTransaction) : w.isFromMe tx ≠ .error .endless := by
  unfold TxWallet.isFromMe
  cases debit : w.getDebit tx with
  | error failure =>
      intro endless
      cases endless
      exact getDebit_ends w tx debit
  | ok nDebit => nofun

omit [Hashing] in
theorem ownDebit_ends (wtx : CWalletTx) (w : TxWallet) : (wtx.getDebit w).2 ≠ .error .endless := by
  unfold CWalletTx.getDebit Memo.read
  split
  · nofun
  · dsimp only
    split
    · nofun
    · split
      · nofun
      · rename_i failure debit
        intro endless
        cases endless
        exact getDebit_ends w _ debit

/-- How many turns of the work queue a transaction can cause. -/
def turns (rank : UInt256 → Nat) (most : Nat) (ptx : CMerkleTx) : Nat := (most + 1) ^ rank ptx.getHash

omit [ScriptDigests] in
theorem turns_found {rank : UInt256 → Nat} {most bound : Nat} {supporting : List CMerkleTx} {vin : List CTxIn}
    {found : List CMerkleTx}
    (lookup : vin.mapM (fun txin => supporting.find? fun prev => prev.getHash = txin.prevout.hash) = some found)
    (smaller : ∀ txin ∈ vin, rank txin.prevout.hash ≤ bound) :
    (found.map (turns rank most)).sum ≤ vin.length * (most + 1) ^ bound ∧ ∀ ptx ∈ found, ptx ∈ supporting := by
  induction vin generalizing found with
  | nil =>
      cases lookup
      simp
  | cons txin rest ih =>
      simp only [List.mapM_cons, Option.bind_eq_bind, Option.bind_eq_some_iff, Option.pure_def,
        Option.some.injEq] at lookup
      obtain ⟨prev, first, others, remaining, rfl⟩ := lookup
      obtain ⟨total, members⟩ := ih remaining fun later member => smaller later (List.mem_cons_of_mem txin member)
      have hash : prev.getHash = txin.prevout.hash := by simpa using List.find?_some first
      have one : turns rank most prev ≤ (most + 1) ^ bound := by
        rw [turns, hash]
        exact Nat.pow_le_pow_right (Nat.succ_pos most) (smaller txin List.mem_cons_self)
      constructor
      · rw [List.map_cons, List.sum_cons, List.length_cons, Nat.succ_mul]
        omega
      · intro ptx member
        rcases List.mem_cons.mp member with rfl | later
        · exact List.mem_of_find?_eq_some first
        · exact members ptx later

omit [ScriptDigests] in
theorem turns_fewer {rank : UInt256 → Nat} {most : Nat} {supporting : List CMerkleTx} {ptx : CMerkleTx}
    {found : List CMerkleTx}
    (lookup : ptx.vin.mapM (fun txin => supporting.find? fun prev => prev.getHash = txin.prevout.hash) = some found)
    (smaller : ∀ txin ∈ ptx.vin, rank txin.prevout.hash < rank ptx.getHash) (few : ptx.vin.length ≤ most) :
    (found.map (turns rank most)).sum < turns rank most ptx ∧ ∀ prev ∈ found, prev ∈ supporting := by
  obtain ⟨total, members⟩ := turns_found lookup fun txin input => Nat.le_sub_one_of_lt (smaller txin input)
  refine ⟨?_, members⟩
  cases inputs : ptx.vin with
  | nil =>
      rw [inputs, List.length_nil, Nat.zero_mul] at total
      exact Nat.lt_of_le_of_lt total (Nat.pow_pos (Nat.succ_pos most))
  | cons txin others =>
      have rankPos : 0 < rank ptx.getHash := Nat.zero_lt_of_lt (smaller txin (inputs ▸ List.mem_cons_self))
      calc (found.map (turns rank most)).sum
          ≤ ptx.vin.length * (most + 1) ^ (rank ptx.getHash - 1) := total
        _ ≤ most * (most + 1) ^ (rank ptx.getHash - 1) := Nat.mul_le_mul_right _ few
        _ < (most + 1) * (most + 1) ^ (rank ptx.getHash - 1) :=
          Nat.mul_lt_mul_of_pos_right (Nat.lt_succ_self most) (Nat.pow_pos (Nat.succ_pos most))
        _ = turns rank most ptx := by
          rw [turns, ← Nat.pow_succ', Nat.succ_eq_add_one, Nat.sub_add_cancel rankPos]

theorem confirmedLoop_ends {rank : UInt256 → Nat} (ranked : wtx.Ranked rank) {most : Nat}
    (few : ∀ ptx ∈ wtx.toCMerkleTx :: wtx.vtxPrev, ptx.vin.length ≤ most) (w : TxWallet) (chain : MainChain)
    {fuel : Nat} {queue : List CMerkleTx} (known : ∀ ptx ∈ queue, ptx ∈ wtx.toCMerkleTx :: wtx.vtxPrev)
    (enough : (queue.map (turns rank most)).sum ≤ fuel) :
    confirmedLoop chain wtx w fuel queue ≠ .error .endless := by
  induction fuel generalizing queue with
  | zero =>
      cases queue with
      | nil => simp [confirmedLoop]
      | cons ptx rest =>
          have positive : 0 < turns rank most ptx := Nat.pow_pos (Nat.succ_pos most)
          rw [List.map_cons, List.sum_cons] at enough
          omega
  | succ fuel ih =>
      cases queue with
      | nil => simp [confirmedLoop]
      | cons ptx rest =>
          have positive : 0 < turns rank most ptx := Nat.pow_pos (Nat.succ_pos most)
          have member := known ptx List.mem_cons_self
          have others : ∀ later ∈ rest, later ∈ wtx.toCMerkleTx :: wtx.vtxPrev :=
            fun later inside => known later (List.mem_cons_of_mem ptx inside)
          rw [List.map_cons, List.sum_cons] at enough
          unfold confirmedLoop
          split
          · simp
          · split
            · exact ih others (by omega)
            · cases mine : w.isFromMe ptx.toCTransaction with
              | error failure =>
                  intro endless
                  cases endless
                  exact isFromMe_ends w _ mine
              | ok fFromMe =>
                  cases fFromMe with
                  | false => simp
                  | true =>
                      simp only
                      split
                      · simp
                      · rename_i found lookup
                        obtain ⟨fewer, members⟩ := turns_fewer lookup (ranked ptx member) (few ptx member)
                        refine ih (fun later inside => ?_) ?_
                        · rcases List.mem_append.mp inside with inRest | inFound
                          · exact others later inRest
                          · exact List.mem_cons_of_mem _ (List.mem_reverse.mp (members later inFound))
                        · rw [List.map_append, List.sum_append]
                          omega

/-- With enough fuel IsConfirmed comes to an end. -/
theorem isConfirmed_ends {rank : UInt256 → Nat} (ranked : wtx.Ranked rank) (w : TxWallet) (chain : MainChain) :
    ∃ enough, ∀ fuel, enough ≤ fuel → wtx.isConfirmed chain w fuel ≠ .error .endless := by
  let most := ((wtx.toCMerkleTx :: wtx.vtxPrev).map fun ptx => ptx.vin.length).sum
  have few : ∀ ptx ∈ wtx.toCMerkleTx :: wtx.vtxPrev, ptx.vin.length ≤ most := fun ptx member =>
    List.single_le_sum (by simp) _ (List.mem_map_of_mem member)
  refine ⟨turns rank most wtx.toCMerkleTx, fun fuel enough => ?_⟩
  unfold isConfirmed
  split
  · nofun
  · split
    · nofun
    · cases debit : (wtx.getDebit w).2 with
      | error failure =>
          intro endless
          cases endless
          exact ownDebit_ends wtx w debit
      | ok nDebit =>
          simp only
          split
          · exact confirmedLoop_ends ranked few w chain (by simp) (by simpa using enough)
          · nofun

end CWalletTx

/-- GetBalance and the balance of the account `*` for no confirmations agree exactly where the unspent
coins of immature coinbases and the change that the wallet cannot spend make up for the excess; without
conflicting spendings, where there are no such coins and no such change. -/
theorem TxWallet.balances_agree_iff (w : TxWallet) (chain : MainChain) (fuel : Nat) (nTotal nBalance : Int)
    (current : ∀ entry ∈ w.entries, entry.2.Current w) (exact : w.SpentExact chain fuel)
    (total : w.getBalance chain fuel = .ok nTotal) (star : w.getBalanceStar chain fuel 0 = .ok nBalance) :
    (nTotal = nBalance ↔
      w.immatureUnspent chain fuel + w.foreignChangeTotal chain fuel = w.excess chain fuel) ∧
    (w.Unconflicted chain fuel →
      (nTotal = nBalance ↔ w.immatureUnspent chain fuel + w.foreignChangeTotal chain fuel = 0)) := by
  have difference := balances_differ current exact total star
  refine ⟨by omega, fun unconflicted => ?_⟩
  have none := excess_eq_zero unconflicted
  omega

namespace CWalletTx

omit [Hashing] in
theorem current_of_uncached {wtx : CWalletTx} {w : TxWallet}
    (uncached : wtx.debit.valid = false ∧ wtx.credit.valid = false ∧ wtx.availableCredit.valid = false ∧
      wtx.change.valid = false) : wtx.Current w :=
  ⟨Memo.current_of_invalid uncached.1, Memo.current_of_invalid uncached.2.1, Memo.current_of_invalid uncached.2.2.1,
    Memo.current_of_invalid uncached.2.2.2⟩

end CWalletTx

end

namespace Sample

/-- The transaction in the only block, with all caches empty. -/
def confirmedTx (tx : CTransaction) (vfSpent : List Bool) : CWalletTx :=
  { CWalletTx.ofTransaction tx with hashBlock := 1, nIndex := 0, fMerkleVerified := true, vfSpent }

def income : CTransaction := ⟨1, [⟨⟨1, 0⟩, [], 0⟩], [⟨50, toKeyZero⟩], 0, []⟩

/-- Pays 20 to someone else, 25 back and 5 in fees. -/
def expense : CTransaction := ⟨1, [⟨⟨income.getHash, 0⟩, [], 0⟩], [⟨20, []⟩, ⟨25, toKeyZero⟩], 0, []⟩

def walletOf (records : List CWalletTx) : TxWallet :=
  { walletWith fun id => id = 0 with
    mapWallet := records.foldl (fun mapWallet wtx => mapWallet.insert wtx.getHash wtx) ∅ }

def payerWallet : TxWallet := walletOf [confirmedTx income [true], confirmedTx expense []]

def minerWallet : TxWallet := walletOf [minedReward]

/-- A spending in no block that carries the two transactions behind it. -/
def supported : CWalletTx :=
  { CWalletTx.ofTransaction expense with vtxPrev := [(confirmedTx income []).toCMerkleTx] }

end Sample

open Sample in
theorem CWalletTx.isConfirmed_ends_sample :
    ∃ enough, ∀ fuel, enough ≤ fuel → supported.isConfirmed oneBlock payerWallet fuel ≠ .error .endless := by
  let rank : UInt256 → Nat := fun hash => if hash = expense.getHash then 2 else if hash = income.getHash then 1 else 0
  have ranked : supported.Ranked rank := by
    unfold Ranked
    decide +kernel
  exact isConfirmed_ends ranked payerWallet oneBlock

open Sample in
theorem TxWallet.balances_agree_iff_payer :
    ((25 : Int) = 25 ↔ payerWallet.immatureUnspent oneBlock 0 + payerWallet.foreignChangeTotal oneBlock 0 =
      payerWallet.excess oneBlock 0) ∧
    (payerWallet.Unconflicted oneBlock 0 →
      ((25 : Int) = 25 ↔ payerWallet.immatureUnspent oneBlock 0 + payerWallet.foreignChangeTotal oneBlock 0 = 0)) := by
  have uncached : ∀ entry ∈ payerWallet.entries, entry.2.debit.valid = false ∧ entry.2.credit.valid = false ∧
      entry.2.availableCredit.valid = false ∧ entry.2.change.valid = false := by decide +kernel
  have exact : payerWallet.SpentExact oneBlock 0 := by
    unfold SpentExact
    decide +kernel
  exact balances_agree_iff payerWallet oneBlock 0 25 25
    (fun entry member => CWalletTx.current_of_uncached (uncached entry member)) exact
    (by decide +kernel) (by decide +kernel)

open Sample in
/-- A coinbase that has not matured counts in one balance only. -/
theorem TxWallet.balances_differ_miner :
    ¬ ∀ (w : TxWallet) (chain : MainChain) (fuel : Nat) (nTotal nBalance : Int),
      (∀ entry ∈ w.entries, entry.2.Current w) → w.SpentExact chain fuel → w.getBalance chain fuel = .ok nTotal →
      w.getBalanceStar chain fuel 0 = .ok nBalance → nTotal = nBalance := by
  intro agree
  have uncached : ∀ entry ∈ minerWallet.entries, entry.2.debit.valid = false ∧ entry.2.credit.valid = false ∧
      entry.2.availableCredit.valid = false ∧ entry.2.change.valid = false := by decide
  have exact : minerWallet.SpentExact oneBlock 0 := by
    unfold SpentExact
    decide +kernel
  have same := agree minerWallet oneBlock 0 0 50
    (fun entry member => CWalletTx.current_of_uncached (uncached entry member)) exact
    (by decide +kernel) (by decide +kernel)
  exact absurd same (by decide)

end BitCrystal
