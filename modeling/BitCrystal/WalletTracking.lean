import BitCrystal.WalletAdd
import BitCrystal.WalletCache

namespace BitCrystal

open Data

/-! # The wallet tracks exactly its own coins -/

/-! ## Amounts in the money range -/

/-- The outputs are worth what CheckTransaction allows. -/
structure CTransaction.InMoney (tx : CTransaction) : Prop where
  nonneg : ∀ txout ∈ tx.vout, 0 ≤ txout.value
  total : (tx.vout.map CTxOut.value).sum ≤ MAX_MONEY

theorem CTransaction.InMoney.moneyRange {tx : CTransaction} (money : tx.InMoney) {txout : CTxOut}
    (member : txout ∈ tx.vout) : moneyRange txout.value = true := by
  have most : txout.value ≤ (tx.vout.map CTxOut.value).sum :=
    List.single_le_sum (by simpa using money.nonneg) _ (List.mem_map_of_mem member)
  exact moneyRange_iff.mpr ⟨money.nonneg txout member, most.trans money.total⟩

namespace TxWallet

theorem foldlM_addAmount {α : Type} {amount : α → Except Failure Int} (what : String) (value : α → Int)
    {parts : List α} (each : ∀ part ∈ parts, amount part = .ok (value part) ∧ 0 ≤ value part) {nSum : Int}
    (nonneg : 0 ≤ nSum) (total : nSum + (parts.map value).sum ≤ MAX_MONEY) :
    parts.foldlM (addAmount amount what) nSum = .ok (nSum + (parts.map value).sum) := by
  induction parts generalizing nSum with
  | nil => simp [pure, Except.pure]
  | cons part rest ih =>
      obtain ⟨computed, positive⟩ := each part List.mem_cons_self
      have others : ∀ part ∈ rest, amount part = .ok (value part) ∧ 0 ≤ value part :=
        fun other member => each other (List.mem_cons_of_mem part member)
      have remaining : 0 ≤ (rest.map value).sum := by
        apply List.sum_nonneg
        simpa using fun other member => (others other member).2
      rw [List.map_cons, List.sum_cons, ← Int.add_assoc] at total ⊢
      have large : MAX_MONEY < 2 ^ 63 := by decide
      have range : int64Range (nSum + value part) := ⟨by omega, by omega⟩
      have money : moneyRange (nSum + value part) = true := moneyRange_iff.mpr ⟨by omega, by omega⟩
      have step : addAmount amount what nSum part = .ok (nSum + value part) := by
        simp [addAmount, computed, addInt64, range, require_of money, pure, Except.pure]
      rw [foldlM_cons_eq_ok]
      exact ⟨_, step, ih others (by omega) total⟩

variable [ScriptDigests]

theorem getCredit_eq {w : TxWallet} {tx : CTransaction} (money : tx.InMoney) :
    w.getCredit tx = .ok (tx.vout.map fun txout => if w.isMine txout then txout.value else 0).sum := by
  have own : (tx.vout.map fun txout => if w.isMine txout then txout.value else 0).sum ≤
      (tx.vout.map CTxOut.value).sum := by
    apply List.sum_le_sum
    intro txout member
    have := money.nonneg txout member
    split <;> omega
  have each : ∀ txout ∈ tx.vout,
      w.getCreditOf txout = .ok (if w.isMine txout then txout.value else 0) ∧
        0 ≤ if w.isMine txout then txout.value else 0 := by
    intro txout member
    refine ⟨by simp [getCreditOf, require_of (money.moneyRange member), pure, Except.pure], ?_⟩
    have := money.nonneg txout member
    split <;> omega
  have sum := foldlM_addAmount "CWallet::GetCredit() : value out of range" _ each (Int.le_refl 0)
    (by have := money.total; omega)
  simpa [getCredit] using sum

end TxWallet

/-! ## Marking outputs as spent -/

namespace CWalletTx

variable {wtx after : CWalletTx}

/-- The same transaction with the same place in the chain. -/
structure SameRecord (wtx after : CWalletTx) : Prop where
  transaction : after.toCTransaction = wtx.toCTransaction
  hashBlock : after.hashBlock = wtx.hashBlock
  vMerkleBranch : after.vMerkleBranch = wtx.vMerkleBranch
  nIndex : after.nIndex = wtx.nIndex

theorem SameRecord.refl (wtx : CWalletTx) : wtx.SameRecord wtx := ⟨rfl, rfl, rfl, rfl⟩

theorem SameRecord.trans {last : CWalletTx} (first : wtx.SameRecord after) (second : after.SameRecord last) :
    wtx.SameRecord last :=
  ⟨second.transaction.trans first.transaction, second.hashBlock.trans first.hashBlock,
    second.vMerkleBranch.trans first.vMerkleBranch, second.nIndex.trans first.nIndex⟩

theorem resizedSpent_length : wtx.resizedSpent.length = wtx.vout.length := by
  simp only [resizedSpent, List.length_append, List.length_take, List.length_replicate]
  omega

theorem markSpent_record (nOut : Nat) : wtx.SameRecord (wtx.markSpent nOut).1 := by
  unfold markSpent
  split
  · exact .refl wtx
  · split <;> exact ⟨rfl, rfl, rfl, rfl⟩

theorem markSpent_isSpent {nOut other : Nat} (within : nOut < wtx.vout.length) (also : other < wtx.vout.length) :
    (wtx.markSpent nOut).1.isSpent other = true ↔ other = nOut ∨ wtx.isSpent other = true := by
  unfold markSpent
  rw [if_neg (by omega), ← resizedSpent_getD also]
  split
  · rename_i already
    constructor
    · exact Or.inr
    · rintro (rfl | spent)
      · simp [isSpent, already]
      · exact spent
  · simp only [isSpent, List.getElem?_set, resizedSpent_length]
    split
    · rename_i same
      simp [same.symm]
    · rename_i different
      simp [Ne.symm different]

variable [Hashing] [ScriptDigests] {chain : MainChain} {w : TxWallet} {fUseCache : Bool}

theorem getCredit_record : wtx.SameRecord (wtx.getCredit chain w fUseCache).1 := by
  unfold getCredit
  rw [tested_eq]
  dsimp only
  split <;> exact ⟨rfl, rfl, rfl, rfl⟩

theorem getCredit_isSpent (nOut : Nat) : (wtx.getCredit chain w fUseCache).1.isSpent nOut = wtx.isSpent nOut := by
  unfold getCredit
  rw [tested_eq]
  dsimp only
  split <;> rfl

theorem getCredit_ok (money : wtx.InMoney) : ∃ nCredit, (wtx.getCredit chain w fUseCache).2 = .ok nCredit := by
  unfold getCredit
  rw [tested_eq]
  dsimp only
  split
  · exact ⟨0, rfl⟩
  · rw [TxWallet.getCredit_eq money]
    unfold Memo.read
    split
    · exact ⟨_, rfl⟩
    · exact ⟨_, rfl⟩

end CWalletTx

/-- One of the inputs spends output `nOut` of the transaction with the given hash. -/
def SpendsOutput (txins : List CTxIn) (hash : UInt256) (nOut : Nat) : Prop :=
  ∃ txin ∈ txins, txin.prevout.hash = hash ∧ txin.prevout.n.toNat = nOut

namespace TxWallet

theorem setTx_lookup (w : TxWallet) (hash other : UInt256) (wtx : CWalletTx) :
    (w.setTx hash wtx).mapWallet[other]? = if other = hash then some wtx else w.mapWallet[other]? :=
  lookup_insert w.mapWallet hash other wtx

variable [ScriptDigests] {w next last : TxWallet} {txins : List CTxIn}

/-- What the inputs do to the wallet: their own outputs get flagged, and nothing else changes. -/
structure Marked (txins : List CTxIn) (w next : TxWallet) : Prop where
  keystore : next.keystore = w.keystore
  absent : ∀ hash : UInt256, w.mapWallet[hash]? = none → next.mapWallet[hash]? = none
  entry : ∀ (hash : UInt256) (wtx : CWalletTx), w.mapWallet[hash]? = some wtx →
    ∃ after : CWalletTx, next.mapWallet[hash]? = some after ∧ wtx.SameRecord after ∧
      ∀ nOut txout, wtx.vout[nOut]? = some txout →
        (after.isSpent nOut = true ↔
          wtx.isSpent nOut = true ∨ w.isMine txout = true ∧ SpendsOutput txins hash nOut)

theorem isMine_congr (same : next.keystore = w.keystore) (txout : CTxOut) : next.isMine txout = w.isMine txout := by
  rw [isMine, isMine, same]

theorem Marked.nothing (w : TxWallet) : Marked [] w w :=
  ⟨rfl, fun _ none => none, fun _ wtx found => ⟨wtx, found, .refl wtx, by simp [SpendsOutput]⟩⟩

theorem Marked.append {others : List CTxIn} (first : Marked txins w next) (second : Marked others next last) :
    Marked (txins ++ others) w last := by
  refine ⟨second.keystore.trans first.keystore, fun hash none => second.absent hash (first.absent hash none), ?_⟩
  intro hash wtx found
  obtain ⟨between, foundNext, record, flags⟩ := first.entry hash wtx found
  obtain ⟨after, foundLast, record', flags'⟩ := second.entry hash between foundNext
  refine ⟨after, foundLast, record.trans record', fun nOut txout output => ?_⟩
  have same : between.vout[nOut]? = some txout := by rw [record.transaction]; exact output
  rw [flags' nOut txout same, flags nOut txout output, isMine_congr first.keystore]
  have split : SpendsOutput (txins ++ others) hash nOut ↔ SpendsOutput txins hash nOut ∨ SpendsOutput others hash nOut := by
    simp only [SpendsOutput, List.mem_append, or_and_right, exists_or]
  rw [split]
  tauto

omit [ScriptDigests] in
theorem spends_singleton {txin : CTxIn} {hash : UInt256} {nOut : Nat} :
    SpendsOutput [txin] hash nOut ↔ txin.prevout.hash = hash ∧ txin.prevout.n.toNat = nOut := by
  simp [SpendsOutput]

theorem marked_setTx {txin : CTxIn} {wtx counted : CWalletTx} {txout : CTxOut}
    (found : w.mapWallet[txin.prevout.hash]? = some wtx)
    (output : wtx.vout[txin.prevout.n.toNat]? = some txout) (mine : w.isMine txout = true)
    (record : wtx.SameRecord counted) (flags : ∀ nOut, counted.isSpent nOut = wtx.isSpent nOut) :
    Marked [txin] w (w.setTx txin.prevout.hash (counted.markSpent txin.prevout.n.toNat).1) := by
  refine ⟨rfl, fun hash none => ?_, fun hash other found' => ?_⟩
  · have different : hash ≠ txin.prevout.hash := by
      rintro rfl
      simp [found] at none
    rw [setTx_lookup, if_neg different]
    exact none
  · by_cases same : hash = txin.prevout.hash
    · subst same
      cases found.symm.trans found'
      refine ⟨_, by rw [setTx_lookup, if_pos rfl], record.trans (CWalletTx.markSpent_record _), ?_⟩
      intro nOut out output'
      have length : counted.vout.length = wtx.vout.length := by rw [record.transaction]
      have within := (List.getElem?_eq_some_iff.mp output).1
      have also := (List.getElem?_eq_some_iff.mp output').1
      rw [CWalletTx.markSpent_isSpent (by omega) (by omega), flags, spends_singleton]
      constructor
      · rintro (rfl | spent)
        · cases output.symm.trans output'
          exact Or.inr ⟨mine, rfl, rfl⟩
        · exact Or.inl spent
      · rintro (spent | ⟨_, _, rfl⟩)
        · exact Or.inr spent
        · exact Or.inl rfl
    · refine ⟨other, by rw [setTx_lookup, if_neg same]; exact found', .refl other, fun nOut out _ => ?_⟩
      rw [spends_singleton]
      exact ⟨Or.inl, fun either => either.resolve_right fun spent => same spent.2.1.symm⟩

variable [Hashing]

theorem updateSpentBy_marked (chain : MainChain) (money : ∀ (hash : UInt256) (wtx : CWalletTx), w.mapWallet[hash]? = some wtx → wtx.InMoney)
    (txin : CTxIn) : (w.updateSpentBy chain txin).2 = .ok () ∧ Marked [txin] w (w.updateSpentBy chain txin).1 := by
  -- nothing is marked where the input spends no unspent own output
  have unmarked : (∀ (wtx : CWalletTx) txout, w.mapWallet[txin.prevout.hash]? = some wtx →
      wtx.vout[txin.prevout.n.toNat]? = some txout →
        w.isMine txout = true → wtx.isSpent txin.prevout.n.toNat = true) → Marked [txin] w w := by
    intro idle
    refine ⟨rfl, fun _ none => none, fun hash wtx found => ⟨wtx, found, .refl wtx, fun nOut txout output => ?_⟩⟩
    rw [spends_singleton]
    constructor
    · exact Or.inl
    · rintro (spent | ⟨mine, rfl, rfl⟩)
      · exact spent
      · exact idle wtx txout found output mine
  unfold updateSpentBy
  cases found : w.mapWallet[txin.prevout.hash]? with
  | none => exact ⟨rfl, unmarked fun wtx txout found' => by simp [found] at found'⟩
  | some wtx =>
      dsimp only
      cases output : wtx.vout[txin.prevout.n.toNat]? with
      | none =>
          refine ⟨rfl, unmarked fun other txout found' output' => ?_⟩
          rw [found] at found'
          cases found'
          simp [output] at output'
      | some txout =>
          dsimp only
          split
          · rename_i marks
            have record : wtx.SameRecord (wtx.getCredit chain w true).1 := CWalletTx.getCredit_record
            have flags : ∀ nOut, (wtx.getCredit chain w true).1.isSpent nOut = wtx.isSpent nOut :=
              CWalletTx.getCredit_isSpent
            have credit : ∃ nCredit, (wtx.getCredit chain w true).2 = .ok nCredit :=
              CWalletTx.getCredit_ok (money _ wtx found)
            cases read : wtx.getCredit chain w true with
            | mk counted answer =>
                rw [read] at record flags credit
                obtain ⟨nCredit, rfl⟩ := credit
                rw [Bool.and_eq_true] at marks
                exact ⟨rfl, marked_setTx found output marks.2 record flags⟩
          · rename_i idle
            refine ⟨rfl, unmarked fun other txout' found' output' mine => ?_⟩
            rw [found] at found'
            cases found'
            rw [output] at output'
            cases output'
            simpa [mine] using idle

/-- No entry is worth more than the money range allows. -/
def AllInMoney (w : TxWallet) : Prop :=
  ∀ (hash : UInt256) (wtx : CWalletTx), w.mapWallet[hash]? = some wtx → wtx.InMoney

omit [Hashing] in
theorem Marked.allInMoney (marked : Marked txins w next) (money : w.AllInMoney) : next.AllInMoney := by
  intro hash wtx found
  cases before : w.mapWallet[hash]? with
  | none => simp [marked.absent hash before] at found
  | some first =>
      obtain ⟨after, found', record, _⟩ := marked.entry hash first before
      cases found.symm.trans found'
      rw [record.transaction]
      exact money hash first before

theorem updateSpentLoop_marked (chain : MainChain) (txins : List CTxIn) (money : w.AllInMoney) :
    (updateSpentLoop chain txins w).2 = .ok () ∧ Marked txins w (updateSpentLoop chain txins w).1 := by
  induction txins generalizing w with
  | nil => exact ⟨rfl, Marked.nothing w⟩
  | cons txin rest ih =>
      obtain ⟨passed, marked⟩ := updateSpentBy_marked chain money txin
      unfold updateSpentLoop
      cases step : w.updateSpentBy chain txin with
      | mk middle answer =>
          rw [step] at passed marked
          cases passed
          obtain ⟨done, others⟩ := ih (marked.allInMoney money)
          exact ⟨done, Marked.append marked others⟩

end TxWallet

/-! ## The place of a transaction in the chain -/

namespace CWalletTx

variable [Hashing] {wtx wtxIn : CWalletTx} {tx : CTransaction} {pblock : CBlock}

/-- The block that a transaction is attached to, and its Merkle branch. -/
def attachment (wtx : CWalletTx) : UInt256 × List UInt256 × Int :=
  (wtx.hashBlock, wtx.vMerkleBranch, wtx.nIndex)

def unattached : UInt256 × List UInt256 × Int := (0, [], -1)

omit [Hashing] in
theorem SameRecord.attachment_eq {after : CWalletTx} (record : wtx.SameRecord after) :
    after.attachment = wtx.attachment := by
  rw [attachment, record.hashBlock, record.vMerkleBranch, record.nIndex, attachment]

theorem ofArrival_transaction (tx : CTransaction) (pblock : Option CBlock) :
    (ofArrival tx pblock).toCTransaction = tx := by
  cases pblock with
  | none => rfl
  | some pblock =>
      unfold ofArrival CMerkleTx.setMerkleBranch
      dsimp only
      split <;> rfl

theorem ofArrival_flags (tx : CTransaction) (pblock : Option CBlock) :
    (ofArrival tx pblock).vfSpent = [] ∧ (ofArrival tx pblock).fFromMe = false := by
  cases pblock <;> exact ⟨rfl, rfl⟩

theorem ofArrival_branch (lost : (ofArrival tx (some pblock)).nIndex = -1) :
    (ofArrival tx (some pblock)).vMerkleBranch = [] := by
  unfold ofArrival CMerkleTx.setMerkleBranch at lost ⊢
  dsimp only at lost ⊢
  split
  · rfl
  · rename_i nIndex located
    rw [located] at lost
    have : (nIndex : Int) = -1 := lost
    omega

omit [Hashing] in
theorem merge_transaction : (wtx.merge wtxIn).1.toCTransaction = wtx.toCTransaction := by
  unfold merge updateSpent
  dsimp only
  split <;> split <;> split <;> split <;> rfl

omit [Hashing] in
theorem merge_vfSpent (none : wtxIn.vfSpent = []) : (wtx.merge wtxIn).1.vfSpent = wtx.vfSpent := by
  unfold merge updateSpent
  rw [none]
  simp only [mergeSpent, Bool.false_eq_true, if_false]
  split <;> split <;> split <;> rfl

omit [Hashing] in
theorem merge_attachment (none : wtxIn.vfSpent = []) :
    (wtx.merge wtxIn).1.attachment =
      (if wtxIn.hashBlock ≠ 0 ∧ wtxIn.hashBlock ≠ wtx.hashBlock then wtxIn.hashBlock else wtx.hashBlock,
        if wtxIn.nIndex ≠ -1 ∧ (wtxIn.vMerkleBranch ≠ wtx.vMerkleBranch ∨ wtxIn.nIndex ≠ wtx.nIndex) then
          (wtxIn.vMerkleBranch, wtxIn.nIndex)
        else (wtx.vMerkleBranch, wtx.nIndex)) := by
  unfold merge updateSpent attachment
  rw [none]
  simp only [mergeSpent, Bool.false_eq_true, if_false]
  split <;> split <;> split <;> rfl

theorem merge_loose : (wtx.merge (ofArrival tx none)).1.attachment = wtx.attachment := by
  rw [merge_attachment (ofArrival_flags tx none).1]
  simp [ofArrival, ofTransaction, CMerkleTx.ofTransaction, attachment]

/-- A transaction that comes with its block gets there, whether it had no block before or this one. -/
theorem merge_mined
    (before : wtx.attachment = unattached ∨ wtx.attachment = (ofArrival tx (some pblock)).attachment) :
    (wtx.merge (ofArrival tx (some pblock))).1.attachment = (ofArrival tx (some pblock)).attachment := by
  rw [merge_attachment (ofArrival_flags tx (some pblock)).1]
  have branch : (ofArrival tx (some pblock)).nIndex = -1 → (ofArrival tx (some pblock)).vMerkleBranch = [] :=
    ofArrival_branch
  generalize ofArrival tx (some pblock) = wtxIn at before branch
  unfold attachment unattached at *
  rcases before with before | before
  · obtain ⟨noBlock, noBranch, noIndex⟩ : wtx.hashBlock = 0 ∧ wtx.vMerkleBranch = [] ∧ wtx.nIndex = -1 := by
      simpa using before
    rw [noBlock, noBranch, noIndex]
    by_cases lost : wtxIn.nIndex = -1
    · simpa [lost, branch lost] using Eq.symm
    · simpa [lost] using Eq.symm
  · obtain ⟨sameBlock, sameBranch, sameIndex⟩ : wtx.hashBlock = wtxIn.hashBlock ∧
        wtx.vMerkleBranch = wtxIn.vMerkleBranch ∧ wtx.nIndex = wtxIn.nIndex := by
      simpa using before
    simp [sameBlock, sameBranch, sameIndex]

end CWalletTx

/-! ## Sequences of transactions -/

/-- One call of AddToWalletIfInvolvingMe with update enabled: the transaction, its block, the chain at that
time and the answer of WriteToDisk. -/
structure Arrival where
  tx : CTransaction
  pblock : Option CBlock
  chain : MainChain
  fWritten : Bool

namespace TxWallet

variable [Hashing] [ScriptDigests]

def receive (w : TxWallet) (arrival : Arrival) : TxWallet × Except Failure Bool :=
  w.addToWalletIfInvolvingMe arrival.chain arrival.tx.getHash arrival.tx arrival.pblock true arrival.fWritten

/-- The calls one after the other, up to the first that throws. -/
def receiveAll : List Arrival → TxWallet → TxWallet × Except Failure Unit
  | [], w => (w, .ok ())
  | arrival :: rest, w =>
      match w.receive arrival with
      | (w, .error failure) => (w, .error failure)
      | (w, .ok _) => receiveAll rest w

end TxWallet

section

variable [Hashing] [ScriptDigests] (keystore : CKeyStore) (arrivals : List Arrival)

/-- The value of the own output of one of the transactions that an input spends. -/
def ownValue (txin : CTxIn) : Int :=
  match (arrivals.find? fun arrival => arrival.tx.getHash = txin.prevout.hash).bind fun arrival =>
      arrival.tx.vout[txin.prevout.n.toNat]? with
  | none => 0
  | some txout => if keystore.isMine txout.scriptPubKey then txout.value else 0

/-- The transaction pays to the wallet or spends an own output of positive value. -/
def Involves (tx : CTransaction) : Prop :=
  (∃ txout ∈ tx.vout, keystore.isMine txout.scriptPubKey = true) ∨ ∃ txin ∈ tx.vin, 0 < ownValue keystore arrivals txin

/-- A sequence of valid transactions: hashes name them, parents come first, amounts stay in the money
range, and the wallet file can be written. -/
structure Orderly : Prop where
  distinct : ∀ a ∈ arrivals, ∀ b ∈ arrivals, a.tx.getHash = b.tx.getHash → a.tx = b.tx
  parents : ∀ seen a later, arrivals = seen ++ a :: later → ∀ txin ∈ a.tx.vin, ∀ b ∈ arrivals,
    b.tx.getHash = txin.prevout.hash → ∃ c ∈ seen, c.tx.getHash = txin.prevout.hash
  money : ∀ a ∈ arrivals, a.tx.InMoney
  debits : ∀ a ∈ arrivals, (a.tx.vin.map (ownValue keystore arrivals)).sum ≤ MAX_MONEY
  written : ∀ a ∈ arrivals, a.fWritten = true

omit [ScriptDigests] in
def OneBlock : Prop :=
  ∀ a ∈ arrivals, ∀ b ∈ arrivals, a.tx.getHash = b.tx.getHash →
    ∀ first second, a.pblock = some first → b.pblock = some second → first = second

omit [ScriptDigests] in
/-- Where the transaction is attached by the arrivals seen so far. -/
def placeOf (seen : List Arrival) (hash : UInt256) : UInt256 × List UInt256 × Int :=
  match seen.find? fun arrival => arrival.tx.getHash = hash && arrival.pblock.isSome with
  | none => CWalletTx.unattached
  | some arrival => (CWalletTx.ofArrival arrival.tx arrival.pblock).attachment

omit [ScriptDigests] in
theorem placeOf_other {seen : List Arrival} {a : Arrival} {hash : UInt256} (other : a.tx.getHash ≠ hash) :
    placeOf (seen ++ [a]) hash = placeOf seen hash := by
  unfold placeOf
  rw [List.find?_append, List.find?_singleton, if_neg (by simp [other]), Option.or_none]

/-- The wallet after the arrivals in `seen`, with the outputs flagged that `txins` spend. -/
structure Tracks (seen : List Arrival) (txins : List CTxIn) (w : TxWallet) : Prop where
  keys : w.keystore = keystore
  entry : ∀ (hash : UInt256) (wtx : CWalletTx), w.mapWallet[hash]? = some wtx →
    ∃ a ∈ seen, a.tx.getHash = hash ∧ wtx.toCTransaction = a.tx ∧ Involves keystore arrivals a.tx
  held : ∀ a ∈ seen, Involves keystore arrivals a.tx → ∃ wtx : CWalletTx, w.mapWallet[a.tx.getHash]? = some wtx
  spent : ∀ (hash : UInt256) (wtx : CWalletTx), w.mapWallet[hash]? = some wtx →
    ∀ nOut txout, wtx.vout[nOut]? = some txout →
      (wtx.isSpent nOut = true ↔ keystore.isMine txout.scriptPubKey = true ∧ SpendsOutput txins hash nOut)
  attached : OneBlock arrivals → ∀ (hash : UInt256) (wtx : CWalletTx), w.mapWallet[hash]? = some wtx →
    wtx.attachment = placeOf seen hash

end

namespace Tracks

variable [Hashing] [ScriptDigests] {keystore : CKeyStore} {arrivals seen : List Arrival} {txins : List CTxIn}
  {w next : TxWallet}

theorem marked {more : List CTxIn} (tracks : Tracks keystore arrivals seen txins w)
    (marked : TxWallet.Marked more w next) : Tracks keystore arrivals seen (txins ++ more) next := by
  have back : ∀ (hash : UInt256) (after : CWalletTx), next.mapWallet[hash]? = some after →
      ∃ wtx : CWalletTx, w.mapWallet[hash]? = some wtx ∧ wtx.SameRecord after ∧
        ∀ nOut txout, wtx.vout[nOut]? = some txout →
          (after.isSpent nOut = true ↔ wtx.isSpent nOut = true ∨ w.isMine txout = true ∧ SpendsOutput more hash nOut) := by
    intro hash after found
    cases before : w.mapWallet[hash]? with
    | none => simp [marked.absent hash before] at found
    | some wtx =>
        obtain ⟨other, found', record, flags⟩ := marked.entry hash wtx before
        cases found.symm.trans found'
        exact ⟨wtx, rfl, record, flags⟩
  refine ⟨marked.keystore.trans tracks.keys, ?_, ?_, ?_, ?_⟩
  · intro hash after found
    obtain ⟨wtx, before, record, _⟩ := back hash after found
    obtain ⟨a, member, named, same, involves⟩ := tracks.entry hash wtx before
    exact ⟨a, member, named, record.transaction.trans same, involves⟩
  · intro a member involves
    obtain ⟨wtx, before⟩ := tracks.held a member involves
    obtain ⟨after, found, _⟩ := marked.entry _ wtx before
    exact ⟨after, found⟩
  · intro hash after found nOut txout output
    obtain ⟨wtx, before, record, flags⟩ := back hash after found
    rw [record.transaction] at output
    have split : SpendsOutput (txins ++ more) hash nOut ↔ SpendsOutput txins hash nOut ∨ SpendsOutput more hash nOut := by
      simp only [SpendsOutput, List.mem_append, or_and_right, exists_or]
    rw [flags nOut txout output, tracks.spent hash wtx before nOut txout output, split, TxWallet.isMine, tracks.keys]
    tauto
  · intro oneBlock hash after found
    obtain ⟨wtx, before, record, _⟩ := back hash after found
    exact record.attachment_eq.trans (tracks.attached oneBlock hash wtx before)

theorem ownValue_nonneg (orderly : Orderly keystore arrivals) (txin : CTxIn) :
    0 ≤ ownValue keystore arrivals txin := by
  unfold ownValue
  split
  · exact Int.le_refl 0
  · rename_i txout output
    obtain ⟨b, parent, found⟩ := Option.bind_eq_some_iff.mp output
    have positive := (orderly.money b (List.mem_of_find?_eq_some parent)).nonneg txout (List.mem_of_getElem? found)
    split
    · exact positive
    · exact Int.le_refl 0

theorem allInMoney (orderly : Orderly keystore arrivals) (within : ∀ a ∈ seen, a ∈ arrivals)
    (tracks : Tracks keystore arrivals seen txins w) : w.AllInMoney := by
  intro hash wtx found
  obtain ⟨a, member, _, same, _⟩ := tracks.entry hash wtx found
  rw [same]
  exact orderly.money a (within a member)

/-- The wallet knows the value of every own output that an input spends, once the parents have been seen. -/
theorem getDebitOf_eq (orderly : Orderly keystore arrivals) (within : ∀ a ∈ seen, a ∈ arrivals)
    (tracks : Tracks keystore arrivals seen txins w) {txin : CTxIn}
    (parents : ∀ b ∈ arrivals, b.tx.getHash = txin.prevout.hash → ∃ c ∈ seen, c.tx.getHash = txin.prevout.hash) :
    w.getDebitOf txin = ownValue keystore arrivals txin := by
  unfold TxWallet.getDebitOf TxWallet.prevOut ownValue
  cases parent : arrivals.find? fun arrival => arrival.tx.getHash = txin.prevout.hash with
  | none =>
      have absent : w.mapWallet[txin.prevout.hash]? = none := by
        cases found : w.mapWallet[txin.prevout.hash]? with
        | none => rfl
        | some wtx =>
            obtain ⟨a, member, named, _⟩ := tracks.entry _ wtx found
            have none := List.find?_eq_none.mp parent a (within a member)
            exact absurd (by simpa using named) none
      rw [absent]
      rfl
  | some b =>
      have member := List.mem_of_find?_eq_some parent
      have named : b.tx.getHash = txin.prevout.hash := by simpa using List.find?_some parent
      obtain ⟨c, seenBefore, sameHash⟩ := parents b member named
      have same : c.tx = b.tx :=
        orderly.distinct c (within c seenBefore) b member (sameHash.trans named.symm)
      rw [Option.bind_some]
      cases found : w.mapWallet[txin.prevout.hash]? with
      | none =>
          -- the parent pays nothing to the wallet
          cases output : b.tx.vout[txin.prevout.n.toNat]? with
          | none => rfl
          | some txout =>
              cases mine : keystore.isMine txout.scriptPubKey with
              | false => simp [mine]
              | true =>
                  have pays : Involves keystore arrivals c.tx := by
                    rw [same]
                    exact Or.inl ⟨txout, List.mem_of_getElem? output, mine⟩
                  obtain ⟨wtx, held⟩ := tracks.held c seenBefore pays
                  simp [sameHash, found] at held
      | some wtx =>
          obtain ⟨a, known, named', transaction, _⟩ := tracks.entry _ wtx found
          have sameTx : wtx.toCTransaction = b.tx :=
            transaction.trans (orderly.distinct a (within a known) b member (named'.trans named.symm))
          have mine : w.isMine = keystore.isMine ∘ CTxOut.scriptPubKey := by
            funext txout
            rw [TxWallet.isMine, tracks.keys, Function.comp_apply]
          rw [Option.bind_some, sameTx, mine]
          rfl

theorem getDebit_eq (orderly : Orderly keystore arrivals) (within : ∀ a ∈ seen, a ∈ arrivals)
    (tracks : Tracks keystore arrivals seen txins w) {a : Arrival} (member : a ∈ arrivals)
    (parents : ∀ txin ∈ a.tx.vin, ∀ b ∈ arrivals, b.tx.getHash = txin.prevout.hash →
      ∃ c ∈ seen, c.tx.getHash = txin.prevout.hash) :
    w.getDebit a.tx = .ok (a.tx.vin.map (ownValue keystore arrivals)).sum := by
  have each : ∀ txin ∈ a.tx.vin,
      (.ok (w.getDebitOf txin) : Except Failure Int) = .ok (ownValue keystore arrivals txin) ∧
        0 ≤ ownValue keystore arrivals txin := by
    intro txin spent
    exact ⟨congrArg Except.ok (getDebitOf_eq orderly within tracks (parents txin spent)), ownValue_nonneg orderly txin⟩
  have sum := TxWallet.foldlM_addAmount "CWallet::GetDebit() : value out of range" _ each (Int.le_refl 0)
    (by rw [Int.zero_add]; exact orderly.debits a member)
  rw [Int.zero_add] at sum
  exact sum

theorem ignored (orderly : Orderly keystore arrivals) (within : ∀ a ∈ seen, a ∈ arrivals)
    (tracks : Tracks keystore arrivals seen txins w) {a : Arrival} (member : a ∈ arrivals)
    (foreign : ¬ Involves keystore arrivals a.tx) : Tracks keystore arrivals (seen ++ [a]) txins w := by
  refine ⟨tracks.keys, ?_, ?_, tracks.spent, ?_⟩
  · intro hash wtx found
    obtain ⟨b, known, rest⟩ := tracks.entry hash wtx found
    exact ⟨b, List.mem_append_left [a] known, rest⟩
  · intro b known involves
    rcases List.mem_append.mp known with known | last
    · exact tracks.held b known involves
    · rw [List.mem_singleton.mp last] at involves
      exact absurd involves foreign
  · intro oneBlock hash wtx found
    have other : a.tx.getHash ≠ hash := by
      intro same
      obtain ⟨b, known, named, _, involves⟩ := tracks.entry hash wtx found
      rw [orderly.distinct b (within b known) a member (named.trans same.symm)] at involves
      exact foreign involves
    rw [tracks.attached oneBlock hash wtx found, placeOf_other other]

/-- A transaction that involves the wallet gets an entry, or its entry is brought up to date. -/
theorem inserted {wtx : CWalletTx} {a : Arrival} (tracks : Tracks keystore arrivals seen txins w)
    (involves : Involves keystore arrivals a.tx) (transaction : wtx.toCTransaction = a.tx)
    (spent : ∀ nOut txout, wtx.vout[nOut]? = some txout →
      (wtx.isSpent nOut = true ↔ keystore.isMine txout.scriptPubKey = true ∧ SpendsOutput txins a.tx.getHash nOut))
    (attached : OneBlock arrivals → wtx.attachment = placeOf (seen ++ [a]) a.tx.getHash) :
    Tracks keystore arrivals (seen ++ [a]) txins (w.setTx a.tx.getHash wtx) := by
  refine ⟨tracks.keys, ?_, ?_, ?_, ?_⟩
  · intro hash other found
    rw [TxWallet.setTx_lookup] at found
    split at found
    · rename_i same
      cases found
      exact ⟨a, List.mem_append_right seen List.mem_cons_self, same.symm, transaction, involves⟩
    · obtain ⟨b, known, rest⟩ := tracks.entry hash other found
      exact ⟨b, List.mem_append_left [a] known, rest⟩
  · intro b known involves
    rw [TxWallet.setTx_lookup]
    split
    · exact ⟨wtx, rfl⟩
    · rename_i different
      rcases List.mem_append.mp known with known | last
      · exact tracks.held b known involves
      · rw [List.mem_singleton.mp last] at different
        exact absurd rfl different
  · intro hash other found
    rw [TxWallet.setTx_lookup] at found
    split at found
    · rename_i same
      cases found
      rw [same]
      exact spent
    · exact tracks.spent hash other found
  · intro oneBlock hash other found
    rw [TxWallet.setTx_lookup] at found
    split at found
    · rename_i same
      cases found
      rw [same]
      exact attached oneBlock
    · rename_i different
      rw [tracks.attached oneBlock hash other found, placeOf_other (Ne.symm different)]

theorem unseen (orderly : Orderly keystore arrivals) (within : ∀ a ∈ seen, a ∈ arrivals)
    (tracks : Tracks keystore arrivals seen txins w) {a : Arrival} (member : a ∈ arrivals)
    (involves : Involves keystore arrivals a.tx) (absent : w.mapWallet[a.tx.getHash]? = none) :
    ∀ b ∈ seen, b.tx.getHash ≠ a.tx.getHash := by
  intro b known same
  have equal : b.tx = a.tx := orderly.distinct b (within b known) a member same
  obtain ⟨wtx, found⟩ := tracks.held b known (by rw [equal]; exact involves)
  rw [same, absent] at found
  cases found

abbrev inputsOf (seen : List Arrival) : List CTxIn := seen.flatMap fun arrival => arrival.tx.vin

omit [Hashing] [ScriptDigests] in
theorem inputsOf_append (seen : List Arrival) (a : Arrival) : inputsOf (seen ++ [a]) = inputsOf seen ++ a.tx.vin := by
  simp [inputsOf]

theorem unspent (orderly : Orderly keystore arrivals) {a : Arrival} {later : List Arrival}
    (split : arrivals = seen ++ a :: later) (fresh : ∀ b ∈ seen, b.tx.getHash ≠ a.tx.getHash) (nOut : Nat) :
    ¬ SpendsOutput (inputsOf seen) a.tx.getHash nOut := by
  rintro ⟨txin, member, spends, _⟩
  obtain ⟨b, known, input⟩ := List.mem_flatMap.mp member
  obtain ⟨front, back, parts⟩ := List.append_of_mem known
  obtain ⟨c, before, named⟩ := orderly.parents front b (back ++ a :: later) (by rw [split, parts]; simp) txin input a
    (by rw [split]; simp) spends.symm
  exact fresh c (by rw [parts]; simp [before]) (named.trans spends)

theorem inserted_new (orderly : Orderly keystore arrivals) (tracks : Tracks keystore arrivals seen (inputsOf seen) w)
    {a : Arrival} {later : List Arrival} (split : arrivals = seen ++ a :: later)
    (involves : Involves keystore arrivals a.tx) (absent : w.mapWallet[a.tx.getHash]? = none) :
    Tracks keystore arrivals (seen ++ [a]) (inputsOf seen)
      (w.setTx a.tx.getHash (CWalletTx.ofArrival a.tx a.pblock).bindWallet) := by
  have within : ∀ b ∈ seen, b ∈ arrivals := fun b known => by rw [split]; simp [known]
  have fresh := tracks.unseen orderly within (by rw [split]; simp) involves absent
  refine tracks.inserted involves (CWalletTx.ofArrival_transaction a.tx a.pblock) ?_ ?_
  · intro nOut txout _
    refine iff_of_false ?_ fun spent => unspent orderly split fresh nOut spent.2
    have flags : (CWalletTx.ofArrival a.tx a.pblock).bindWallet.vfSpent = [] :=
      (CWalletTx.ofArrival_flags a.tx a.pblock).1
    simp [CWalletTx.isSpent, flags]
  · intro _
    have unplaced : (seen.find? fun arrival => arrival.tx.getHash = a.tx.getHash && arrival.pblock.isSome) = none := by
      refine List.find?_eq_none.mpr fun b known => ?_
      simp [fresh b known]
    have unbound : ∀ wtx : CWalletTx, wtx.bindWallet.attachment = wtx.attachment := fun _ => rfl
    unfold placeOf
    rw [List.find?_append, unplaced, Option.none_or, List.find?_singleton, unbound]
    cases placed : a.pblock with
    | none => simp [CWalletTx.ofArrival, CWalletTx.ofTransaction, CMerkleTx.ofTransaction,
        CWalletTx.attachment, CWalletTx.unattached]
    | some pblock => simp [placed]

theorem inserted_again (orderly : Orderly keystore arrivals) (tracks : Tracks keystore arrivals seen (inputsOf seen) w)
    {a : Arrival} {later : List Arrival} (split : arrivals = seen ++ a :: later) {wtx : CWalletTx}
    (found : w.mapWallet[a.tx.getHash]? = some wtx) :
    Tracks keystore arrivals (seen ++ [a]) (inputsOf seen)
      (w.setTx a.tx.getHash (wtx.bindWallet.merge (.ofArrival a.tx a.pblock)).1) := by
  have within : ∀ b ∈ seen, b ∈ arrivals := fun b known => by rw [split]; simp [known]
  have member : a ∈ arrivals := by rw [split]; simp
  obtain ⟨b, known, named, transaction, involves⟩ := tracks.entry _ wtx found
  rw [orderly.distinct b (within b known) a member named] at transaction involves
  have flags := (CWalletTx.ofArrival_flags a.tx a.pblock).1
  have same : (wtx.bindWallet.merge (.ofArrival a.tx a.pblock)).1.toCTransaction = wtx.toCTransaction :=
    CWalletTx.merge_transaction
  refine tracks.inserted involves (same.trans transaction) ?_ ?_
  · intro nOut txout output
    rw [same] at output
    rw [CWalletTx.isSpent, CWalletTx.merge_vfSpent flags]
    exact tracks.spent _ wtx found nOut txout output
  · intro oneBlock
    have before := tracks.attached oneBlock _ wtx found
    have unbound : wtx.bindWallet.attachment = wtx.attachment := rfl
    unfold placeOf at before ⊢
    rw [List.find?_append, List.find?_singleton]
    cases placed : a.pblock with
    | none =>
        rw [CWalletTx.merge_loose, unbound, before]
        simp
    | some pblock =>
        cases earlier : seen.find? fun arrival => arrival.tx.getHash = a.tx.getHash && arrival.pblock.isSome with
        | none =>
            rw [earlier] at before
            rw [CWalletTx.merge_mined (Or.inl (unbound.trans before))]
            simp [placed]
        | some c =>
            rw [earlier] at before
            have seenBefore := within c (List.mem_of_find?_eq_some earlier)
            have matching := List.find?_some earlier
            simp only [Bool.and_eq_true, decide_eq_true_eq] at matching
            obtain ⟨first, placedBefore⟩ := Option.isSome_iff_exists.mp matching.2
            have sameBlock := oneBlock c seenBefore a member matching.1 first pblock placedBefore placed
            have sameTx := orderly.distinct c seenBefore a member matching.1
            simp only [placedBefore, sameBlock, sameTx] at before
            rw [CWalletTx.merge_mined (Or.inr (unbound.trans before))]
            simp [placedBefore, sameBlock, sameTx]

theorem addToWallet_tracks (orderly : Orderly keystore arrivals)
    (tracks : Tracks keystore arrivals seen (inputsOf seen) w) {a : Arrival} {later : List Arrival}
    (split : arrivals = seen ++ a :: later) (involves : Involves keystore arrivals a.tx) :
    (w.addToWallet a.chain (.ofArrival a.tx a.pblock) a.fWritten).2 = .ok true ∧
      Tracks keystore arrivals (seen ++ [a]) (inputsOf (seen ++ [a]))
        (w.addToWallet a.chain (.ofArrival a.tx a.pblock) a.fWritten).1 := by
  have within : ∀ b ∈ seen ++ [a], b ∈ arrivals := fun b known => by
    rw [split]
    simpa [or_assoc] using Or.inl (List.mem_append.mp known)
  have written : a.fWritten = true := orderly.written a (by rw [split]; simp)
  have hash : (CWalletTx.ofArrival a.tx a.pblock).getHash = a.tx.getHash := by
    rw [CWalletTx.ofArrival_transaction]
  -- the entry that is written, from which WalletUpdateSpent starts
  obtain ⟨wtx, fChanged, entry, transaction, tracked⟩ : ∃ (wtx : CWalletTx) (fChanged : Bool),
      w.entryFor (.ofArrival a.tx a.pblock) = (wtx, fChanged) ∧ wtx.toCTransaction = a.tx ∧
      Tracks keystore arrivals (seen ++ [a]) (inputsOf seen) (w.setTx a.tx.getHash wtx) := by
    unfold TxWallet.entryFor
    rw [hash]
    cases found : w.mapWallet[a.tx.getHash]? with
    | none =>
        exact ⟨_, _, rfl, CWalletTx.ofArrival_transaction a.tx a.pblock,
          tracks.inserted_new orderly split involves found⟩
    | some wtx =>
        refine ⟨_, _, rfl, ?_, tracks.inserted_again orderly split found⟩
        obtain ⟨b, known, named, same, _⟩ := tracks.entry _ wtx found
        have equal := orderly.distinct b (within b (by simp [known])) a (within a (by simp)) named
        exact CWalletTx.merge_transaction.trans (same.trans equal)
  obtain ⟨passed, marked⟩ := TxWallet.updateSpentLoop_marked a.chain a.tx.vin
    (tracked.allInMoney orderly within)
  have run : w.addToWallet a.chain (.ofArrival a.tx a.pblock) a.fWritten =
      ((TxWallet.updateSpentLoop a.chain a.tx.vin (w.setTx a.tx.getHash wtx)).1, .ok true) := by
    unfold TxWallet.addToWallet TxWallet.walletUpdateSpent
    rw [hash, entry]
    dsimp only
    rw [written, transaction, Bool.not_true, Bool.and_false, if_neg (by decide)]
    cases loop : TxWallet.updateSpentLoop a.chain a.tx.vin (w.setTx a.tx.getHash wtx) with
    | mk last answer =>
        rw [loop] at passed
        cases passed
        rfl
  rw [run, inputsOf_append]
  exact ⟨rfl, tracked.marked marked⟩

theorem receive_tracks (orderly : Orderly keystore arrivals)
    (tracks : Tracks keystore arrivals seen (inputsOf seen) w) {a : Arrival} {later : List Arrival}
    (split : arrivals = seen ++ a :: later) :
    (∃ answer, (w.receive a).2 = .ok answer) ∧
      Tracks keystore arrivals (seen ++ [a]) (inputsOf (seen ++ [a])) (w.receive a).1 := by
  have within : ∀ b ∈ seen, b ∈ arrivals := fun b known => by rw [split]; simp [known]
  have member : a ∈ arrivals := by rw [split]; simp
  have added : Involves keystore arrivals a.tx →
      (∃ answer, (w.addToWallet a.chain (.ofArrival a.tx a.pblock) a.fWritten).2 = .ok answer) ∧
        Tracks keystore arrivals (seen ++ [a]) (inputsOf (seen ++ [a]))
          (w.addToWallet a.chain (.ofArrival a.tx a.pblock) a.fWritten).1 := by
    intro involves
    obtain ⟨answer, after⟩ := tracks.addToWallet_tracks orderly split involves
    exact ⟨⟨true, answer⟩, after⟩
  unfold TxWallet.receive TxWallet.addToWalletIfInvolvingMe
  dsimp only
  rw [Bool.not_true, Bool.and_false, if_neg (by decide)]
  split
  · rename_i direct
    refine added ?_
    rcases Bool.or_eq_true_iff.mp direct with existed | pays
    · obtain ⟨wtx, found⟩ := Option.isSome_iff_exists.mp existed
      obtain ⟨b, known, named, _, involves⟩ := tracks.entry _ wtx found
      rwa [orderly.distinct b (within b known) a member named] at involves
    · obtain ⟨txout, output, mine⟩ := List.any_eq_true.mp pays
      rw [TxWallet.isMine, tracks.keys] at mine
      exact Or.inl ⟨txout, output, mine⟩
  · rename_i indirect
    have debit := tracks.getDebit_eq orderly within member (orderly.parents seen a later split)
    have fromMe : w.isFromMe a.tx = .ok (decide (0 < (a.tx.vin.map (ownValue keystore arrivals)).sum)) := by
      rw [TxWallet.isFromMe, debit]
      rfl
    rw [fromMe]
    by_cases spends : 0 < (a.tx.vin.map (ownValue keystore arrivals)).sum
    · rw [decide_eq_true spends]
      refine added (Or.inr ?_)
      by_contra none
      simp only [not_exists, not_and, not_lt] at none
      have nothing : (a.tx.vin.map (ownValue keystore arrivals)).sum = 0 := by
        refine List.sum_eq_zero fun value input => ?_
        obtain ⟨txin, spent, rfl⟩ := List.mem_map.mp input
        exact Int.le_antisymm (none txin spent) (ownValue_nonneg orderly txin)
      omega
    · rw [decide_eq_false spends]
      have foreign : ¬ Involves keystore arrivals a.tx := by
        rintro (⟨txout, output, mine⟩ | ⟨txin, input, positive⟩)
        · refine indirect (Bool.or_eq_true_iff.mpr (Or.inr (List.any_eq_true.mpr ⟨txout, output, ?_⟩)))
          rw [TxWallet.isMine, tracks.keys]
          exact mine
        · have most : ownValue keystore arrivals txin ≤ (a.tx.vin.map (ownValue keystore arrivals)).sum :=
            List.single_le_sum (by simpa using fun other _ => ownValue_nonneg orderly other) _
              (List.mem_map_of_mem input)
          omega
      have passes := tracks.ignored orderly within member foreign
      obtain ⟨passed, marked⟩ := TxWallet.updateSpentLoop_marked a.chain a.tx.vin
        (tracks.allInMoney orderly within)
      have after := passes.marked marked
      rw [← inputsOf_append] at after
      unfold TxWallet.walletUpdateSpent
      cases loop : TxWallet.updateSpentLoop a.chain a.tx.vin w with
      | mk last answer =>
          rw [loop] at passed after
          cases passed
          exact ⟨⟨false, rfl⟩, after⟩

theorem start (keystore : CKeyStore) (arrivals : List Arrival)
    (mapAddressBook : Std.ExtTreeMap CTxDestination String) :
    Tracks keystore arrivals [] [] ⟨keystore, mapAddressBook, ∅⟩ := by
  refine ⟨rfl, ?_, ?_, ?_, ?_⟩
  · intro hash wtx found
    simp at found
  · intro a member
    simp at member
  · intro hash wtx found
    simp at found
  · intro _ hash wtx found
    simp at found

theorem receiveAll_tracks {rest : List Arrival} (orderly : Orderly keystore arrivals) (split : arrivals = seen ++ rest)
    (tracks : Tracks keystore arrivals seen (inputsOf seen) w) :
    (w.receiveAll rest).2 = .ok () ∧ Tracks keystore arrivals arrivals (inputsOf arrivals) (w.receiveAll rest).1 := by
  induction rest generalizing seen w with
  | nil =>
      rw [List.append_nil] at split
      subst split
      exact ⟨rfl, tracks⟩
  | cons a later ih =>
      obtain ⟨⟨answer, passed⟩, after⟩ := tracks.receive_tracks orderly split
      unfold TxWallet.receiveAll
      cases step : w.receive a with
      | mk middle result =>
          rw [step] at passed after
          cases passed
          exact ih (by rw [split]; simp) after

theorem involves_iff (orderly : Orderly keystore arrivals)
    (tracks : Tracks keystore arrivals arrivals txins w) (tx : CTransaction) :
    Involves keystore arrivals tx ↔ w.isMineTx tx = true ∨ ∃ txin ∈ tx.vin, 0 < w.getDebitOf txin := by
  have pays : (∃ txout ∈ tx.vout, keystore.isMine txout.scriptPubKey = true) ↔ w.isMineTx tx = true := by
    simp [TxWallet.isMineTx, TxWallet.isMine, tracks.keys]
  have debit : ∀ txin, w.getDebitOf txin = ownValue keystore arrivals txin := fun txin =>
    tracks.getDebitOf_eq orderly (fun _ member => member) fun b member named => ⟨b, member, named⟩
  rw [Involves, pays]
  simp only [debit]

end Tracks

/-- The same transaction in the same place of the chain, with the same outputs flagged. -/
structure CWalletTx.SameTracked (wtx other : CWalletTx) : Prop where
  transaction : other.toCTransaction = wtx.toCTransaction
  attachment : other.attachment = wtx.attachment
  flags : ∀ nOut, nOut < wtx.vout.length → other.isSpent nOut = wtx.isSpent nOut

def SameArrivals (arrivals others : List Arrival) : Prop :=
  ∀ (tx : CTransaction) (pblock : Option CBlock),
    (∃ a ∈ arrivals, a.tx = tx ∧ a.pblock = pblock) ↔ ∃ b ∈ others, b.tx = tx ∧ b.pblock = pblock

namespace SameArrivals

variable [Hashing] [ScriptDigests] {keystore : CKeyStore} {arrivals others : List Arrival}

omit [Hashing] [ScriptDigests] in
theorem symm (same : SameArrivals arrivals others) : SameArrivals others arrivals :=
  fun tx pblock => (same tx pblock).symm

omit [Hashing] [ScriptDigests] in
theorem arrival (same : SameArrivals arrivals others) {a : Arrival} (member : a ∈ arrivals) :
    ∃ b ∈ others, b.tx = a.tx ∧ b.pblock = a.pblock :=
  (same a.tx a.pblock).mp ⟨a, member, rfl, rfl⟩

omit [ScriptDigests] in
theorem find_tx (same : SameArrivals arrivals others) (orderly : ∀ a ∈ others, ∀ b ∈ others,
      a.tx.getHash = b.tx.getHash → a.tx = b.tx) (hash : UInt256) :
    ((arrivals.find? fun arrival => arrival.tx.getHash = hash).map Arrival.tx) =
      (others.find? fun arrival => arrival.tx.getHash = hash).map Arrival.tx := by
  cases first : arrivals.find? fun arrival => arrival.tx.getHash = hash with
  | none =>
      have absent : (others.find? fun arrival => arrival.tx.getHash = hash) = none := by
        refine List.find?_eq_none.mpr fun b member named => ?_
        obtain ⟨a, known, tx, _⟩ := same.symm.arrival member
        refine List.find?_eq_none.mp first a known ?_
        rw [tx]
        exact named
      rw [absent]
  | some a =>
      have named : a.tx.getHash = hash := by simpa using List.find?_some first
      obtain ⟨b, known, tx, _⟩ := same.arrival (List.mem_of_find?_eq_some first)
      cases second : others.find? fun arrival => arrival.tx.getHash = hash with
      | none =>
          exact absurd (by rw [tx]; simpa using named) (List.find?_eq_none.mp second b known)
      | some c =>
          have named' : c.tx.getHash = hash := by simpa using List.find?_some second
          have equal := orderly c (List.mem_of_find?_eq_some second) b known
            (named'.trans ((congrArg CTransaction.getHash tx).trans named).symm)
          simp [equal, tx]

theorem ownValue_eq (same : SameArrivals arrivals others) (orderly : Orderly keystore others) (txin : CTxIn) :
    ownValue keystore arrivals txin = ownValue keystore others txin := by
  have found := same.find_tx orderly.distinct txin.prevout.hash
  have bound : ∀ list : List Arrival, ((list.find? fun arrival => arrival.tx.getHash = txin.prevout.hash).bind
      fun arrival => arrival.tx.vout[txin.prevout.n.toNat]?) =
      ((list.find? fun arrival => arrival.tx.getHash = txin.prevout.hash).map Arrival.tx).bind
        fun tx => tx.vout[txin.prevout.n.toNat]? := by
    intro list
    rw [Option.bind_map]
    rfl
  rw [ownValue, ownValue, bound, bound, found]

theorem involves_iff (same : SameArrivals arrivals others) (orderly : Orderly keystore others) (tx : CTransaction) :
    Involves keystore arrivals tx ↔ Involves keystore others tx := by
  rw [Involves, Involves]
  simp only [same.ownValue_eq orderly]

omit [ScriptDigests] in
theorem placeOf_eq (same : SameArrivals arrivals others) (oneBlock : OneBlock arrivals)
    (distinct : ∀ a ∈ arrivals, ∀ b ∈ arrivals, a.tx.getHash = b.tx.getHash → a.tx = b.tx) (hash : UInt256) :
    placeOf others hash = placeOf arrivals hash := by
  unfold placeOf
  cases first : arrivals.find? fun arrival => arrival.tx.getHash = hash && arrival.pblock.isSome with
  | none =>
      have absent : (others.find? fun arrival => arrival.tx.getHash = hash && arrival.pblock.isSome) = none := by
        refine List.find?_eq_none.mpr fun b member matching => ?_
        obtain ⟨a, known, tx, pblock⟩ := same.symm.arrival member
        refine List.find?_eq_none.mp first a known ?_
        rw [tx, pblock]
        exact matching
      rw [absent]
  | some a =>
      have matching := List.find?_some first
      obtain ⟨b, known, tx, pblock⟩ := same.arrival (List.mem_of_find?_eq_some first)
      cases second : others.find? fun arrival => arrival.tx.getHash = hash && arrival.pblock.isSome with
      | none =>
          exact absurd (by rw [tx, pblock]; exact matching) (List.find?_eq_none.mp second b known)
      | some c =>
          have matching' := List.find?_some second
          simp only [Bool.and_eq_true, decide_eq_true_eq] at matching matching'
          obtain ⟨d, member, tx', pblock'⟩ := same.symm.arrival (List.mem_of_find?_eq_some second)
          have sameHash : d.tx.getHash = a.tx.getHash := by
            rw [tx', matching'.1, matching.1]
          have equal := distinct d member a (List.mem_of_find?_eq_some first) sameHash
          obtain ⟨one, placed⟩ := Option.isSome_iff_exists.mp matching.2
          obtain ⟨two, placed'⟩ := Option.isSome_iff_exists.mp matching'.2
          have blocks := oneBlock d member a (List.mem_of_find?_eq_some first) sameHash two one
            (pblock'.trans placed') placed
          simp only
          rw [← tx', equal, placed, placed', blocks]

omit [Hashing] [ScriptDigests] in
theorem spends_iff (same : SameArrivals arrivals others) (hash : UInt256) (nOut : Nat) :
    SpendsOutput (Tracks.inputsOf arrivals) hash nOut ↔ SpendsOutput (Tracks.inputsOf others) hash nOut := by
  have oneWay : ∀ {first second : List Arrival}, SameArrivals first second →
      SpendsOutput (Tracks.inputsOf first) hash nOut → SpendsOutput (Tracks.inputsOf second) hash nOut := by
    rintro first second same ⟨txin, member, spends⟩
    obtain ⟨a, known, input⟩ := List.mem_flatMap.mp member
    obtain ⟨b, known', tx, _⟩ := same.arrival known
    exact ⟨txin, List.mem_flatMap.mpr ⟨b, known', by rw [tx]; exact input⟩, spends⟩
  exact ⟨oneWay same, oneWay same.symm⟩

end SameArrivals

section

variable [Hashing] [ScriptDigests] {keystore : CKeyStore} {arrivals others : List Arrival} {w v : TxWallet}

theorem tracked_alike (orderly : Orderly keystore arrivals) (also : Orderly keystore others)
    (same : SameArrivals arrivals others) (oneBlock : OneBlock arrivals)
    (first : Tracks keystore arrivals arrivals (Tracks.inputsOf arrivals) w)
    (second : Tracks keystore others others (Tracks.inputsOf others) v) (hash : UInt256) :
    Option.Rel CWalletTx.SameTracked w.mapWallet[hash]? v.mapWallet[hash]? := by
  have otherBlock : OneBlock others := by
    intro a member b member' sameHash one two placed placed'
    obtain ⟨c, known, tx, pblock⟩ := same.symm.arrival member
    obtain ⟨d, known', tx', pblock'⟩ := same.symm.arrival member'
    exact oneBlock c known d known' (by rw [tx, tx', sameHash]) one two (pblock.trans placed) (pblock'.trans placed')
  cases found : w.mapWallet[hash]? with
  | none =>
      cases found' : v.mapWallet[hash]? with
      | none => exact .none
      | some other =>
          obtain ⟨b, member, named, _, involves⟩ := second.entry hash other found'
          obtain ⟨a, known, tx, _⟩ := same.symm.arrival member
          obtain ⟨wtx, held⟩ := first.held a known (by rw [same.involves_iff also, tx]; exact involves)
          rw [tx, named, found] at held
          cases held
  | some wtx =>
      obtain ⟨a, member, named, transaction, involves⟩ := first.entry hash wtx found
      obtain ⟨b, known, tx, _⟩ := same.arrival member
      obtain ⟨other, held⟩ := second.held b known (by rw [tx, ← same.involves_iff also]; exact involves)
      rw [tx, named] at held
      rw [held]
      obtain ⟨c, member', named', transaction', _⟩ := second.entry hash other held
      have sameTx : other.toCTransaction = wtx.toCTransaction := by
        rw [transaction', transaction, ← tx]
        exact also.distinct c member' b known (by rw [named', tx, named])
      refine .some ⟨sameTx, ?_, ?_⟩
      · rw [first.attached oneBlock hash wtx found, second.attached otherBlock hash other held,
          same.placeOf_eq oneBlock orderly.distinct]
      · intro nOut within
        have output := List.getElem?_eq_getElem within
        have output' : other.vout[nOut]? = some wtx.vout[nOut] := by rw [sameTx]; exact output
        rw [Bool.eq_iff_iff, first.spent hash wtx found nOut _ output, second.spent hash other held nOut _ output',
          same.spends_iff]

/-- Given transactions whose parents come first, the wallet holds those that pay to it or spend an own output
of positive value; of these an own output is flagged spent exactly where a transaction of the sequence spends
it, and the order of the sequence makes no difference. -/
theorem wallet_tracks_own_coins (mapAddressBook : Std.ExtTreeMap CTxDestination String)
    (orderly : Orderly keystore arrivals) :
    let last := TxWallet.receiveAll arrivals ⟨keystore, mapAddressBook, ∅⟩
    last.2 = .ok () ∧
    (∀ hash : UInt256, last.1.mapWallet[hash]?.isSome ↔
      ∃ a ∈ arrivals, a.tx.getHash = hash ∧
        (last.1.isMineTx a.tx = true ∨ ∃ txin ∈ a.tx.vin, 0 < last.1.getDebitOf txin)) ∧
    (∀ (hash : UInt256) (wtx : CWalletTx), last.1.mapWallet[hash]? = some wtx →
      (∃ a ∈ arrivals, a.tx.getHash = hash ∧ wtx.toCTransaction = a.tx) ∧
      ∀ nOut txout, wtx.vout[nOut]? = some txout → last.1.isMine txout = true →
        (wtx.isSpent nOut = true ↔ ∃ a ∈ arrivals, SpendsOutput a.tx.vin hash nOut)) ∧
    (∀ others, Orderly keystore others → SameArrivals arrivals others → OneBlock arrivals →
      ∀ hash : UInt256, Option.Rel CWalletTx.SameTracked last.1.mapWallet[hash]?
        (TxWallet.receiveAll others ⟨keystore, mapAddressBook, ∅⟩).1.mapWallet[hash]?) := by
  obtain ⟨done, tracks⟩ := Tracks.receiveAll_tracks orderly rfl (Tracks.start keystore arrivals mapAddressBook)
  refine ⟨done, fun hash => ?_, fun hash wtx found => ⟨?_, ?_⟩, fun others also same oneBlock hash => ?_⟩
  · simp only [← tracks.involves_iff orderly]
    constructor
    · intro held
      obtain ⟨wtx, found⟩ := Option.isSome_iff_exists.mp held
      obtain ⟨a, member, named, _, involves⟩ := tracks.entry hash wtx found
      exact ⟨a, member, named, involves⟩
    · rintro ⟨a, member, rfl, involves⟩
      obtain ⟨wtx, found⟩ := tracks.held a member involves
      simp [found]
  · obtain ⟨a, member, named, transaction, _⟩ := tracks.entry hash wtx found
    exact ⟨a, member, named, transaction⟩
  · intro nOut txout output mine
    rw [TxWallet.isMine, tracks.keys] at mine
    rw [tracks.spent hash wtx found nOut txout output]
    simp only [mine, true_and, SpendsOutput, Tracks.inputsOf, List.mem_flatMap]
    constructor
    · rintro ⟨txin, ⟨a, member, input⟩, spends⟩
      exact ⟨a, member, txin, input, spends⟩
    · rintro ⟨a, member, txin, input, spends⟩
      exact ⟨txin, ⟨a, member, input⟩, spends⟩
  · obtain ⟨_, tracks'⟩ := Tracks.receiveAll_tracks also rfl (Tracks.start keystore others mapAddressBook)
    exact tracked_alike orderly also same oneBlock tracks tracks' hash

end

namespace Sample

/-- A transaction that pays `nValue` to the key with the hash zero. -/
def ownPayment (nValue : Int64) : CTransaction := ⟨1, [⟨⟨5, 0⟩, [], 0⟩], [⟨nValue, toKeyZero⟩], 0, []⟩

/-- A transaction that spends the first output of another one and pays to nobody. -/
def spending (tx : CTransaction) : CTransaction := ⟨1, [⟨⟨tx.getHash, 0⟩, [], 0⟩], [⟨0, []⟩], 0, []⟩

def arrivalOf (tx : CTransaction) : Arrival := ⟨tx, none, oneBlock, true⟩

/-- The payment and the transaction that spends it. -/
def paidAndSpent (nValue : Int64) : List Arrival :=
  [arrivalOf (ownPayment nValue), arrivalOf (spending (ownPayment nValue))]

def keyZero : CKeyStore := ⟨fun id => id = 0, ∅⟩

theorem paidAndSpent_parents {nValue : Int64} (foreign : ∀ b ∈ paidAndSpent nValue, b.tx.getHash ≠ 5) :
    ∀ seen a later, paidAndSpent nValue = seen ++ a :: later → ∀ txin ∈ a.tx.vin, ∀ b ∈ paidAndSpent nValue,
      b.tx.getHash = txin.prevout.hash → ∃ c ∈ seen, c.tx.getHash = txin.prevout.hash := by
  intro seen a later split txin member b known named
  cases seen with
  | nil =>
      obtain ⟨rfl, _⟩ := List.cons.inj split
      simp only [arrivalOf, ownPayment, List.mem_singleton] at member
      subst member
      exact absurd named (foreign b known)
  | cons first rest =>
      obtain ⟨rfl, tail⟩ := List.cons.inj split
      cases rest with
      | nil =>
          obtain ⟨rfl, _⟩ := List.cons.inj tail
          simp only [arrivalOf, spending, List.mem_singleton] at member
          subst member
          exact ⟨_, List.mem_cons_self, rfl⟩
      | cons second others =>
          have length := congrArg List.length tail
          simp at length

theorem paidAndSpent_orderly {nValue : Int64} (foreign : ∀ b ∈ paidAndSpent nValue, b.tx.getHash ≠ 5)
    (distinct : ∀ a ∈ paidAndSpent nValue, ∀ b ∈ paidAndSpent nValue, a.tx.getHash = b.tx.getHash → a.tx = b.tx)
    (nonneg : ∀ a ∈ paidAndSpent nValue, ∀ txout ∈ a.tx.vout, 0 ≤ txout.value)
    (total : ∀ a ∈ paidAndSpent nValue, (a.tx.vout.map CTxOut.value).sum ≤ MAX_MONEY)
    (debits : ∀ a ∈ paidAndSpent nValue, (a.tx.vin.map (ownValue keyZero (paidAndSpent nValue))).sum ≤ MAX_MONEY) :
    Orderly keyZero (paidAndSpent nValue) where
  distinct := distinct
  parents := paidAndSpent_parents foreign
  money := fun a member => ⟨nonneg a member, total a member⟩
  debits := debits
  written := by
    intro a member
    simp only [paidAndSpent, List.mem_cons, List.not_mem_nil, or_false] at member
    rcases member with rfl | rfl <;> rfl

end Sample

open Sample in
/-- The wallet holds the transaction that spends a payment of 50, and the payment is flagged. -/
theorem wallet_tracks_own_coins_payment :
    (TxWallet.receiveAll (paidAndSpent 50) ⟨keyZero, ∅, ∅⟩).1.mapWallet[(spending (ownPayment 50)).getHash]?.isSome := by
  have orderly : Orderly keyZero (paidAndSpent 50) := paidAndSpent_orderly (by decide +kernel) (by decide +kernel)
    (by decide +kernel) (by decide +kernel) (by decide +kernel)
  obtain ⟨_, held, _⟩ := wallet_tracks_own_coins ∅ orderly
  exact (held _).mpr ⟨arrivalOf (spending (ownPayment 50)), by simp [paidAndSpent], rfl,
    Or.inr ⟨⟨⟨(ownPayment 50).getHash, 0⟩, [], 0⟩, List.mem_cons_self, by decide +kernel⟩⟩

open Sample in
/-- A transaction that spends an own output of no value is not held. -/
theorem zeroSpending_not_held :
    ¬ ∀ (keystore : CKeyStore) (arrivals : List Arrival), Orderly keystore arrivals → ∀ hash : UInt256,
      ((TxWallet.receiveAll arrivals ⟨keystore, ∅, ∅⟩).1.mapWallet[hash]?.isSome ↔
        ∃ a ∈ arrivals, a.tx.getHash = hash ∧
          ((TxWallet.receiveAll arrivals ⟨keystore, ∅, ∅⟩).1.isMineTx a.tx = true ∨
            ∃ txin ∈ a.tx.vin, ∃ txout ∈ (TxWallet.receiveAll arrivals ⟨keystore, ∅, ∅⟩).1.prevOut txin,
              (TxWallet.receiveAll arrivals ⟨keystore, ∅, ∅⟩).1.isMine txout = true)) := by
  intro always
  have orderly : Orderly keyZero (paidAndSpent 0) := paidAndSpent_orderly (by decide +kernel) (by decide +kernel)
    (by decide +kernel) (by decide +kernel) (by decide +kernel)
  have held := (always keyZero (paidAndSpent 0) orderly (spending (ownPayment 0)).getHash).mpr
    ⟨arrivalOf (spending (ownPayment 0)), by simp [paidAndSpent], rfl,
      Or.inr ⟨⟨⟨(ownPayment 0).getHash, 0⟩, [], 0⟩, List.mem_cons_self, ⟨0, toKeyZero⟩, by decide +kernel, by decide +kernel⟩⟩
  exact absurd held (by decide +kernel)

end BitCrystal
