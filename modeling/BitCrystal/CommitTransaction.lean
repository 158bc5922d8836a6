import BitCrystal.KeyPoolRuns
import BitCrystal.WalletBalances
import BitCrystal.WalletTracking

namespace BitCrystal

open Data CScript

/-! # CommitTransaction -/

/-- The outcome of a call that throws where the key pool does. -/
def keyFailure (what : String) : Failure :=
  if what = "assert(keypool.vchPubKey.IsValid())" then .undefined what else .exception what

/-- `CScript().SetDestination(keyID)` -/
def scriptForKey (keyID : CKeyID) : CScript :=
  [OP_DUP, OP_HASH160] ++ pushData (littleEndian 20 keyID.toNat) ++ [OP_EQUALVERIFY, OP_CHECKSIG]

/-- What CommitTransaction is answered: by the key generator, the chain, the wallet file and the memory pool. -/
structure CommitAnswers where
  source : KeySource
  chain : MainChain
  /-- WriteToDisk in AddToWallet -/
  fWritten : Bool
  /-- WriteToDisk in the AddToWallet of SyncWithWallets -/
  fSynced : Bool
  /-- WriteDefaultKey -/
  fDefaultWritten : CPubKey → Bool
  /-- CTxMemPool::accept finds nothing to object to. -/
  fAccepted : Bool

structure SpendingWallet where
  txs : TxWallet
  keys : CWallet

namespace SpendingWallet

/-- The keys that have been made for the pool are in the key store. -/
def learnKeys (w : SpendingWallet) : SpendingWallet :=
  { w with txs.keystore.haveKey := fun keyID => w.txs.keystore.haveKey keyID || decide (keyID ∈ w.keys.mapKeys) }

def setDefaultKey (w : SpendingWallet) (vchPubKey : CPubKey) (fDefaultWritten : Bool) : SpendingWallet :=
  if w.keys.fFileBacked && !fDefaultWritten then w else { w with keys.vchDefaultKey := vchPubKey }

def setAddressBookName (w : SpendingWallet) (address : CTxDestination) (strName : String) : SpendingWallet :=
  { w with txs.mapAddressBook := w.txs.mapAddressBook.insert address strName }

section

variable [ScriptDigests] (answers : CommitAnswers)

/-- If default receiving address gets used, replace it with a new one. -/
def replaceDefaultKey (scriptDefaultKey : CScript) : List CTxOut → SpendingWallet → SpendingWallet × Except Failure Unit
  | [], w => (w, .ok ())
  | txout :: rest, w =>
      if txout.scriptPubKey = scriptDefaultKey then
        match w.keys.getKeyFromPool answers.source false with
        | (keys, .error what) => ({ w with keys }.learnKeys, .error (keyFailure what))
        | (keys, .ok none) => replaceDefaultKey scriptDefaultKey rest { w with keys }.learnKeys
        | (keys, .ok (some (newDefaultKey, _))) =>
            let w := { w with keys }.learnKeys.setDefaultKey newDefaultKey (answers.fDefaultWritten newDefaultKey)
            replaceDefaultKey scriptDefaultKey rest (w.setAddressBookName (.CKeyID w.keys.vchDefaultKey.getID) "")
      else replaceDefaultKey scriptDefaultKey rest w

def checkDefaultKey (w : SpendingWallet) (vout : List CTxOut) : SpendingWallet × Except Failure Unit :=
  if w.keys.vchDefaultKey.isValid then
    w.replaceDefaultKey answers (scriptForKey w.keys.vchDefaultKey.getID) vout
  else (w, .ok ())

variable [Hashing]

/-- AddToWallet with the new default key. -/
def addToWallet (w : SpendingWallet) (wtxIn : CWalletTx) (fWritten : Bool) : SpendingWallet × Except Failure Bool :=
  let (wtx, fChanged) := w.txs.entryFor wtxIn
  let w := { w with txs := w.txs.setTx wtxIn.getHash wtx }
  if fChanged && !fWritten then (w, .ok false)
  else
    match w.checkDefaultKey answers wtx.vout with
    | (w, .error failure) => (w, .error failure)
    | (w, .ok ()) =>
        match w.txs.walletUpdateSpent answers.chain wtx.toCTransaction with
        | (txs, .error failure) => ({ w with txs }, .error failure)
        | (txs, .ok ()) => ({ w with txs }, .ok true)

/-- SyncWithWallets, which calls AddToWalletIfInvolvingMe. -/
def sync (w : SpendingWallet) (tx : CTransaction) : SpendingWallet × Except Failure Bool :=
  if w.txs.mapWallet[tx.getHash]?.isSome || w.txs.isMineTx tx then
    w.addToWallet answers (.ofArrival tx none) answers.fSynced
  else
    match w.txs.isFromMe tx with
    | .error failure => (w, .error failure)
    | .ok true => w.addToWallet answers (.ofArrival tx none) answers.fSynced
    | .ok false =>
        match w.txs.walletUpdateSpent answers.chain tx with
        | (txs, .error failure) => ({ w with txs }, .error failure)
        | (txs, .ok ()) => ({ w with txs }, .ok false)

/-- AcceptToMemoryPool, which catches run-time errors. -/
def acceptToMemoryPool (w : SpendingWallet) (tx : CTransaction) : SpendingWallet × Except Failure Bool :=
  if answers.fAccepted then
    match w.sync answers tx with
    | (w, .error (.exception _)) => (w, .ok false)
    | (w, .error failure) => (w, .error failure)
    | (w, .ok _) => (w, .ok true)
  else (w, .ok false)

end

end SpendingWallet

namespace TxWallet

/-- `mapWallet[hash]`, which makes an empty transaction where there is none. -/
def coinAt (w : TxWallet) (hash : UInt256) : CWalletTx :=
  w.mapWallet[hash]?.getD (.ofTransaction ⟨1, [], [], 0, []⟩)

def markCoin (w : TxWallet) (txin : CTxIn) : TxWallet × Except Failure Unit :=
  let (coin, marked) := (w.coinAt txin.prevout.hash).bindWallet.markSpent txin.prevout.n.toNat
  (w.setTx txin.prevout.hash coin, marked)

/-- Mark old coins as spent. -/
def markCoins : List CTxIn → TxWallet → TxWallet × Except Failure Unit
  | [], w => (w, .ok ())
  | txin :: rest, w =>
      match w.markCoin txin with
      | (w, .error failure) => (w, .error failure)
      | (w, .ok ()) => markCoins rest w

end TxWallet

section

variable [Hashing]

/-- The transactions that RelayWalletTransaction relays. -/
def CWalletTx.relays (wtx : CWalletTx) (chain : MainChain) : List CTransaction :=
  (wtx.vtxPrev ++ [wtx.toCMerkleTx]).filterMap fun tx =>
    if !tx.isCoinBase && tx.getDepthInMainChain chain = 0 then some tx.toCTransaction else none

/-- What CommitTransaction works on. -/
structure CommitState where
  wallet : SpendingWallet
  reservekey : CReserveKey
  mapRequestCount : Std.ExtTreeMap UInt256 Nat
  relayed : List CTransaction

variable [ScriptDigests]

def commitTransaction (answers : CommitAnswers) (wtxNew : CWalletTx) (state : CommitState) :
    CommitState × Except Failure Bool :=
  -- Take key pair from key pool so it won't be used again
  let (keys, reservekey) := state.reservekey.keepKey state.wallet.keys
  match { state.wallet with keys }.addToWallet answers wtxNew answers.fWritten with
  | (wallet, .error failure) => ({ state with wallet, reservekey }, .error failure)
  | (wallet, .ok _) =>
      match TxWallet.markCoins wtxNew.vin wallet.txs with
      | (txs, .error failure) => ({ state with wallet := { wallet with txs }, reservekey }, .error failure)
      | (txs, .ok ()) =>
          let mapRequestCount := state.mapRequestCount.insert wtxNew.getHash 0
          match { wallet with txs }.acceptToMemoryPool answers wtxNew.toCTransaction with
          | (wallet, .error failure) => ({ state with wallet, reservekey, mapRequestCount }, .error failure)
          | (wallet, .ok false) => ({ state with wallet, reservekey, mapRequestCount }, .ok false)
          | (wallet, .ok true) =>
              ({ wallet, reservekey, mapRequestCount, relayed := state.relayed ++ wtxNew.relays answers.chain }, .ok true)

end

/-! ## What a call records -/

namespace TxWallet

variable {w middle next : TxWallet} {own : UInt256} {txins : List CTxIn}

/-- The flags of `after` are those of `wtx`, and some of the outputs that the inputs spend. -/
def FlagsWithin (txins : List CTxIn) (hash : UInt256) (wtx after : CWalletTx) : Prop :=
  ∀ nOut < wtx.vout.length, (wtx.isSpent nOut = true → after.isSpent nOut = true) ∧
    (after.isSpent nOut = true → wtx.isSpent nOut = true ∨ SpendsOutput txins hash nOut)

/-- The transactions of `w` are still there, and only outputs that the inputs spend have been
flagged, other than in the entry of `own`. -/
structure Kept (own : UInt256) (txins : List CTxIn) (w next : TxWallet) : Prop where
  entry : ∀ (hash : UInt256) (wtx : CWalletTx), w.mapWallet[hash]? = some wtx →
    ∃ after : CWalletTx, next.mapWallet[hash]? = some after ∧ after.toCTransaction = wtx.toCTransaction ∧
      (hash ≠ own → wtx.SameRecord after ∧ FlagsWithin txins hash wtx after)

theorem FlagsWithin.refl (txins : List CTxIn) (hash : UInt256) (wtx : CWalletTx) : FlagsWithin txins hash wtx wtx :=
  fun _ _ => ⟨id, Or.inl⟩

theorem Kept.of_mapWallet (same : next.mapWallet = w.mapWallet) : Kept own txins w next := by
  refine ⟨fun hash wtx found => ⟨wtx, by rw [same]; exact found, rfl, fun _ => ?_⟩⟩
  exact ⟨.refl wtx, .refl txins hash wtx⟩

theorem Kept.trans (first : Kept own txins w middle) (second : Kept own txins middle next) : Kept own txins w next := by
  refine ⟨fun hash wtx found => ?_⟩
  obtain ⟨between, foundMiddle, transaction, others⟩ := first.entry hash wtx found
  obtain ⟨after, foundNext, transaction', others'⟩ := second.entry hash between foundMiddle
  refine ⟨after, foundNext, transaction'.trans transaction, fun other => ?_⟩
  obtain ⟨record, flags⟩ := others other
  obtain ⟨record', flags'⟩ := others' other
  refine ⟨record.trans record', fun nOut within => ?_⟩
  have also : nOut < between.vout.length := by rw [record.transaction]; exact within
  constructor
  · exact fun spent => (flags' nOut also).1 ((flags nOut within).1 spent)
  · intro spent
    rcases (flags' nOut also).2 spent with earlier | spends
    · exact (flags nOut within).2 earlier
    · exact .inr spends

theorem Kept.setTx {hash : UInt256} {wtx : CWalletTx}
    (transaction : ∀ before : CWalletTx, w.mapWallet[hash]? = some before → wtx.toCTransaction = before.toCTransaction)
    (flags : hash ≠ own → ∀ before : CWalletTx, w.mapWallet[hash]? = some before →
      before.SameRecord wtx ∧ FlagsWithin txins hash before wtx) : Kept own txins w (w.setTx hash wtx) := by
  refine ⟨fun other before found => ?_⟩
  rw [setTx_lookup]
  split
  · rename_i same
    rw [same] at found ⊢
    exact ⟨wtx, rfl, transaction before found, fun different => flags different before found⟩
  · exact ⟨before, found, rfl, fun _ => ⟨.refl before, .refl txins other before⟩⟩

theorem flagsWithin_markSpent {hash : UInt256} {wtx counted : CWalletTx} {nOut : Nat} (record : wtx.SameRecord counted)
    (flags : ∀ other, counted.isSpent other = wtx.isSpent other) (within : nOut < wtx.vout.length)
    (spends : SpendsOutput txins hash nOut) : FlagsWithin txins hash wtx (counted.markSpent nOut).1 := by
  intro other also
  have length : counted.vout.length = wtx.vout.length := by rw [record.transaction]
  rw [CWalletTx.markSpent_isSpent (by omega) (by omega), flags]
  constructor
  · exact Or.inr
  · rintro (rfl | spent)
    · exact .inr spends
    · exact .inl spent

theorem flagsWithin_of_eq {hash : UInt256} {wtx counted : CWalletTx}
    (flags : ∀ other, counted.isSpent other = wtx.isSpent other) : FlagsWithin txins hash wtx counted := by
  intro other _
  rw [flags]
  exact ⟨id, Or.inl⟩

variable [Hashing] [ScriptDigests] (chain : MainChain)

theorem updateSpentBy_kept {txin : CTxIn} (member : txin ∈ txins) : Kept own txins w (w.updateSpentBy chain txin).1 := by
  unfold updateSpentBy
  cases found : w.mapWallet[txin.prevout.hash]? with
  | none => exact .of_mapWallet rfl
  | some wtx =>
      have record : wtx.SameRecord (wtx.getCredit chain w true).1 := CWalletTx.getCredit_record
      have flags : ∀ nOut, (wtx.getCredit chain w true).1.isSpent nOut = wtx.isSpent nOut := CWalletTx.getCredit_isSpent
      have same : ∀ before : CWalletTx, w.mapWallet[txin.prevout.hash]? = some before → before = wtx :=
        fun before found' => Option.some.inj (found'.symm.trans found)
      dsimp only
      cases output : wtx.vout[txin.prevout.n.toNat]? with
      | none => exact .of_mapWallet rfl
      | some txout =>
          have within := (List.getElem?_eq_some_iff.mp output).1
          dsimp only
          split
          · cases read : wtx.getCredit chain w true with
            | mk counted answer =>
                rw [read] at record flags
                cases answer with
                | error failure =>
                    refine .setTx (fun before found' => ?_) fun _ before found' => ?_
                    · rw [same before found']
                      exact record.transaction
                    · rw [same before found']
                      exact ⟨record, flagsWithin_of_eq flags⟩
                | ok nCredit =>
                    refine .setTx (fun before found' => ?_) fun _ before found' => ?_
                    · rw [same before found']
                      exact (record.trans (CWalletTx.markSpent_record _)).transaction
                    · rw [same before found']
                      exact ⟨record.trans (CWalletTx.markSpent_record _),
                        flagsWithin_markSpent record flags within ⟨txin, member, rfl, rfl⟩⟩
          · exact .of_mapWallet rfl

theorem updateSpentLoop_kept {rest : List CTxIn} (subset : ∀ txin ∈ rest, txin ∈ txins) :
    Kept own txins w (updateSpentLoop chain rest w).1 := by
  induction rest generalizing w with
  | nil => exact .of_mapWallet rfl
  | cons txin rest ih =>
      have first : Kept own txins w (w.updateSpentBy chain txin).1 :=
        updateSpentBy_kept chain (subset txin List.mem_cons_self)
      unfold updateSpentLoop
      cases step : w.updateSpentBy chain txin with
      | mk middle answer =>
          rw [step] at first
          cases answer with
          | error failure => exact first
          | ok done => exact first.trans (ih fun other member => subset other (List.mem_cons_of_mem _ member))

theorem walletUpdateSpent_kept (tx : CTransaction) : Kept own tx.vin w (w.walletUpdateSpent chain tx).1 :=
  updateSpentLoop_kept chain fun _ member => member

def Flagged (w : TxWallet) (hash : UInt256) (nOut : Nat) : Prop :=
  ∃ wtx : CWalletTx, w.mapWallet[hash]? = some wtx ∧ nOut < wtx.vout.length ∧ wtx.isSpent nOut = true

omit [Hashing] [ScriptDigests] in
theorem Kept.flagged {hash : UInt256} {nOut : Nat} (kept : Kept own txins w next) (other : hash ≠ own)
    (flagged : w.Flagged hash nOut) : next.Flagged hash nOut := by
  obtain ⟨wtx, found, within, spent⟩ := flagged
  obtain ⟨after, found', transaction, others⟩ := kept.entry hash wtx found
  obtain ⟨record, flags⟩ := others other
  exact ⟨after, found', by rw [transaction]; exact within, (flags nOut within).1 spent⟩

omit [Hashing] [ScriptDigests] in
theorem markCoin_kept (own : UInt256) {txin : CTxIn} (member : txin ∈ txins) (run : (w.markCoin txin).2 = .ok ()) :
    Kept own txins w (w.markCoin txin).1 ∧
      (w.markCoin txin).1.Flagged txin.prevout.hash txin.prevout.n.toNat := by
  have within : txin.prevout.n.toNat < (w.coinAt txin.prevout.hash).vout.length := by
    by_contra beyond
    simp [markCoin, CWalletTx.markSpent, CWalletTx.bindWallet, CWalletTx.markDirty, Nat.not_lt.mp beyond] at run
  have coin : ∀ before : CWalletTx, w.mapWallet[txin.prevout.hash]? = some before →
      w.coinAt txin.prevout.hash = before := by
    intro before found
    rw [coinAt, found, Option.getD_some]
  have bound : ∀ wtx : CWalletTx, wtx.SameRecord wtx.bindWallet := fun wtx => ⟨rfl, rfl, rfl, rfl⟩
  have record : ∀ wtx : CWalletTx, wtx.SameRecord (wtx.bindWallet.markSpent txin.prevout.n.toNat).1 :=
    fun wtx => (bound wtx).trans (CWalletTx.markSpent_record _)
  refine ⟨?_, _, by rw [markCoin, setTx_lookup, if_pos rfl], ?_, ?_⟩
  · refine .setTx (fun before found => ?_) fun _ before found => ?_
    · rw [coin before found]
      exact (record before).transaction
    · rw [coin before found] at within ⊢
      exact ⟨record before, flagsWithin_markSpent (bound before) (fun _ => rfl) within ⟨txin, member, rfl, rfl⟩⟩
  · rw [(record _).transaction]
    exact within
  · have flagged : txin.prevout.n.toNat < (w.coinAt txin.prevout.hash).bindWallet.vout.length := within
    exact (CWalletTx.markSpent_isSpent flagged flagged).mpr (.inl rfl)

omit [Hashing] [ScriptDigests] in
theorem markCoins_kept (own : UInt256) {rest : List CTxIn} (subset : ∀ txin ∈ rest, txin ∈ txins) (run : (markCoins rest w).2 = .ok ()) :
    Kept own txins w (markCoins rest w).1 ∧
      ∀ txin ∈ rest, txin.prevout.hash ≠ own → (markCoins rest w).1.Flagged txin.prevout.hash txin.prevout.n.toNat := by
  induction rest generalizing w with
  | nil => exact ⟨.of_mapWallet rfl, by simp⟩
  | cons txin rest ih =>
      unfold markCoins at run ⊢
      cases step : w.markCoin txin with
      | mk middle answer =>
          rw [step] at run
          cases answer with
          | error failure => simp at run
          | ok done =>
              obtain ⟨first, flagged⟩ := markCoin_kept (w := w) own (subset txin List.mem_cons_self) (by rw [step])
              rw [step] at first flagged
              obtain ⟨later, others⟩ := ih (fun other member => subset other (List.mem_cons_of_mem _ member)) run
              refine ⟨first.trans later, fun other member different => ?_⟩
              cases List.mem_cons.mp member with
              | inl same =>
                  rw [same] at different ⊢
                  exact later.flagged different flagged
              | inr rest => exact others other rest different

end TxWallet

namespace SpendingWallet

theorem setDefaultKey_txs (w : SpendingWallet) (vchPubKey : CPubKey) (fDefaultWritten : Bool) :
    (w.setDefaultKey vchPubKey fDefaultWritten).txs = w.txs := by
  unfold setDefaultKey
  split
  · rfl
  · rfl

section

variable [ScriptDigests] (answers : CommitAnswers)

theorem replaceDefaultKey_mapWallet (scriptDefaultKey : CScript) (vout : List CTxOut) (w : SpendingWallet) :
    (w.replaceDefaultKey answers scriptDefaultKey vout).1.txs.mapWallet = w.txs.mapWallet := by
  induction vout generalizing w with
  | nil => rfl
  | cons txout rest ih =>
      unfold replaceDefaultKey
      split
      · split
        · rfl
        · rw [ih]
          rfl
        · dsimp only
          rw [ih, setAddressBookName]
          dsimp only
          rw [setDefaultKey_txs]
          rfl
      · exact ih w

theorem checkDefaultKey_mapWallet (w : SpendingWallet) (vout : List CTxOut) :
    (w.checkDefaultKey answers vout).1.txs.mapWallet = w.txs.mapWallet := by
  unfold checkDefaultKey
  split
  · exact replaceDefaultKey_mapWallet answers _ vout w
  · rfl

def Elsewhere (w : SpendingWallet) (vout : List CTxOut) : Prop :=
  ∀ txout ∈ vout, txout.scriptPubKey ≠ scriptForKey w.keys.vchDefaultKey.getID

theorem replaceDefaultKey_elsewhere {scriptDefaultKey : CScript} {vout : List CTxOut} (w : SpendingWallet)
    (elsewhere : ∀ txout ∈ vout, txout.scriptPubKey ≠ scriptDefaultKey) :
    w.replaceDefaultKey answers scriptDefaultKey vout = (w, .ok ()) := by
  induction vout with
  | nil => rfl
  | cons txout rest ih =>
      rw [replaceDefaultKey, if_neg (elsewhere txout List.mem_cons_self)]
      exact ih fun other member => elsewhere other (List.mem_cons_of_mem _ member)

theorem checkDefaultKey_elsewhere {w : SpendingWallet} {vout : List CTxOut} (elsewhere : w.Elsewhere vout) :
    w.checkDefaultKey answers vout = (w, .ok ()) := by
  unfold checkDefaultKey
  split
  · exact replaceDefaultKey_elsewhere answers w elsewhere
  · rfl

end

section

variable [Hashing] [ScriptDigests] (answers : CommitAnswers) {w : SpendingWallet} {wtxIn : CWalletTx}

omit [ScriptDigests] in
theorem entryFor_transaction {w : TxWallet}
    (known : ∀ wtx : CWalletTx, w.mapWallet[wtxIn.getHash]? = some wtx → wtx.toCTransaction = wtxIn.toCTransaction) :
    (w.entryFor wtxIn).1.toCTransaction = wtxIn.toCTransaction := by
  unfold TxWallet.entryFor
  cases found : w.mapWallet[wtxIn.getHash]? with
  | none => rfl
  | some wtx =>
      dsimp only
      rw [CWalletTx.merge_transaction]
      exact known wtx found

def Holds (w : SpendingWallet) (tx : CTransaction) : Prop :=
  ∃ wtx : CWalletTx, w.txs.mapWallet[tx.getHash]? = some wtx ∧ wtx.toCTransaction = tx

/-- What AddToWallet does to a wallet that has no other transaction with the hash. -/
structure Added (tx : CTransaction) (w next : SpendingWallet) : Prop where
  kept : TxWallet.Kept tx.getHash tx.vin w.txs next.txs
  holds : next.Holds tx
  keys : w.Elsewhere tx.vout → next.keys = w.keys

theorem addToWallet_added (fWritten : Bool)
    (known : ∀ wtx : CWalletTx, w.txs.mapWallet[wtxIn.getHash]? = some wtx → wtx.toCTransaction = wtxIn.toCTransaction) :
    Added wtxIn.toCTransaction w (w.addToWallet answers wtxIn fWritten).1 := by
  have transaction := entryFor_transaction known
  unfold addToWallet
  cases entered : w.txs.entryFor wtxIn with
  | mk wtx fChanged =>
      rw [entered] at transaction
      dsimp only at transaction ⊢
      have stored : TxWallet.Kept wtxIn.getHash wtxIn.vin w.txs (w.txs.setTx wtxIn.getHash wtx) :=
        .setTx (fun before found => transaction.trans (known before found).symm) fun other => absurd rfl other
      have found : (w.txs.setTx wtxIn.getHash wtx).mapWallet[wtxIn.getHash]? = some wtx := by
        rw [TxWallet.setTx_lookup, if_pos rfl]
      split
      · exact ⟨stored, ⟨wtx, found, transaction⟩, fun _ => rfl⟩
      · have same := checkDefaultKey_mapWallet answers { w with txs := w.txs.setTx wtxIn.getHash wtx } wtx.vout
        have elsewhere : w.Elsewhere wtxIn.vout →
            ({ w with txs := w.txs.setTx wtxIn.getHash wtx } : SpendingWallet).checkDefaultKey answers wtx.vout =
              ({ w with txs := w.txs.setTx wtxIn.getHash wtx }, .ok ()) := by
          intro elsewhere
          rw [transaction]
          exact checkDefaultKey_elsewhere answers elsewhere
        cases replaced : ({ w with txs := w.txs.setTx wtxIn.getHash wtx } : SpendingWallet).checkDefaultKey answers wtx.vout with
        | mk middle answer =>
            rw [replaced] at same elsewhere
            dsimp only at same
            have keys : w.Elsewhere wtxIn.vout → middle.keys = w.keys := by
              intro nowhere
              rw [(Prod.mk.inj (elsewhere nowhere)).1]
            have checked : TxWallet.Kept wtxIn.getHash wtxIn.vin w.txs middle.txs := stored.trans (.of_mapWallet same)
            cases answer with
            | error failure => exact ⟨checked, ⟨wtx, by rw [same]; exact found, transaction⟩, keys⟩
            | ok done =>
                have updated : TxWallet.Kept wtxIn.getHash wtxIn.vin middle.txs
                    (middle.txs.walletUpdateSpent answers.chain wtx.toCTransaction).1 := by
                  rw [transaction]
                  exact TxWallet.walletUpdateSpent_kept answers.chain wtxIn.toCTransaction
                dsimp only
                cases update : middle.txs.walletUpdateSpent answers.chain wtx.toCTransaction with
                | mk txs result =>
                    rw [update] at updated
                    have last := checked.trans updated
                    obtain ⟨after, found', transaction', _⟩ := updated.entry _ wtx (by rw [same]; exact found)
                    cases result with
                    | error failure => exact ⟨last, ⟨after, found', transaction'.trans transaction⟩, keys⟩
                    | ok done => exact ⟨last, ⟨after, found', transaction'.trans transaction⟩, keys⟩

theorem acceptToMemoryPool_added {tx : CTransaction} (holds : w.Holds tx) :
    Added tx w (w.acceptToMemoryPool answers tx).1 := by
  obtain ⟨wtx, found, transaction⟩ := holds
  have unchanged : Added tx w w := ⟨.of_mapWallet rfl, ⟨wtx, found, transaction⟩, fun _ => rfl⟩
  have arrival : (CWalletTx.ofArrival tx none).toCTransaction = tx := CWalletTx.ofArrival_transaction tx none
  have synced : Added tx w (w.sync answers tx).1 := by
    rw [sync, found, Option.isSome_some, Bool.true_or, if_pos rfl]
    have known : ∀ other : CWalletTx, w.txs.mapWallet[(CWalletTx.ofArrival tx none).getHash]? = some other →
        other.toCTransaction = (CWalletTx.ofArrival tx none).toCTransaction := by
      intro other found'
      rw [arrival, found] at found'
      rw [arrival, ← Option.some.inj found', transaction]
    have added := addToWallet_added answers answers.fSynced known
    rw [arrival] at added
    exact added
  unfold acceptToMemoryPool
  split
  · cases run : w.sync answers tx with
    | mk next answer =>
        rw [run] at synced
        cases answer with
        | error failure => cases failure <;> exact synced
        | ok done => exact synced
  · exact unchanged

end

end SpendingWallet

section

variable [Hashing] [ScriptDigests]

omit [Hashing] [ScriptDigests] in
theorem CReserveKey.keepKey_null (reserve : CReserveKey) (wallet : CWallet) : (reserve.keepKey wallet).2 = .null := by
  unfold keepKey
  split
  · rfl
  · rfl

omit [Hashing] [ScriptDigests] in
theorem CReserveKey.keepKey_default (reserve : CReserveKey) (wallet : CWallet) :
    (reserve.keepKey wallet).1.vchDefaultKey = wallet.vchDefaultKey := by
  unfold keepKey CWallet.keepKey CWallet.erasePool
  split
  · split
    · rfl
    · rfl
  · rfl

/-- What CommitTransaction leaves, whatever it returns. -/
structure CommitState.Recorded (wtxNew : CWalletTx) (state next : CommitState) : Prop where
  holds : next.wallet.Holds wtxNew.toCTransaction
  flags : ∀ (hash : UInt256) (wtx : CWalletTx), state.wallet.txs.mapWallet[hash]? = some wtx → hash ≠ wtxNew.getHash →
    ∃ after : CWalletTx, next.wallet.txs.mapWallet[hash]? = some after ∧ wtx.SameRecord after ∧
      ∀ nOut < wtx.vout.length,
        (after.isSpent nOut = true ↔ wtx.isSpent nOut = true ∨ SpendsOutput wtxNew.vin hash nOut)
  reservekey : next.reservekey = .null
  keys : state.wallet.Elsewhere wtxNew.vout → next.wallet.keys = (state.reservekey.keepKey state.wallet.keys).1

/-- The key is kept, the transaction is added, its inputs are flagged and the memory pool is asked. -/
theorem CommitState.Recorded.of_steps {wtxNew : CWalletTx} {state next : CommitState} {wallet : SpendingWallet}
    {txs : TxWallet}
    (added : SpendingWallet.Added wtxNew.toCTransaction
      { state.wallet with keys := (state.reservekey.keepKey state.wallet.keys).1 } wallet)
    (coins : TxWallet.Kept wtxNew.getHash wtxNew.vin wallet.txs txs)
    (flagged : ∀ txin ∈ wtxNew.vin, txin.prevout.hash ≠ wtxNew.getHash →
      txs.Flagged txin.prevout.hash txin.prevout.n.toNat)
    (accepted : SpendingWallet.Added wtxNew.toCTransaction { wallet with txs } next.wallet)
    (reservekey : next.reservekey = (state.reservekey.keepKey state.wallet.keys).2) : state.Recorded wtxNew next := by
  have whole := added.kept.trans (coins.trans accepted.kept)
  have sameDefault := state.reservekey.keepKey_default state.wallet.keys
  refine ⟨accepted.holds, fun hash wtx found other => ?_, reservekey.trans (state.reservekey.keepKey_null _), ?_⟩
  · obtain ⟨last, foundLast, transactionLast, others⟩ := whole.entry hash wtx found
    obtain ⟨record, flags⟩ := others other
    refine ⟨last, foundLast, record, fun nOut within => ⟨(flags nOut within).2, ?_⟩⟩
    rintro (spent | ⟨txin, member, rfl, rfl⟩)
    · exact (flags nOut within).1 spent
    · obtain ⟨spender, foundSpender, _, set⟩ := accepted.kept.flagged other (flagged txin member other)
      rw [Option.some.inj (foundLast.symm.trans foundSpender)]
      exact set
  · intro nowhere
    have before : ({ state.wallet with keys := (state.reservekey.keepKey state.wallet.keys).1 } : SpendingWallet).Elsewhere
        wtxNew.vout := by
      rw [SpendingWallet.Elsewhere, sameDefault]
      exact nowhere
    have first := added.keys before
    have second : ({ wallet with txs } : SpendingWallet).Elsewhere wtxNew.vout := by
      rw [SpendingWallet.Elsewhere]
      dsimp only
      rw [first]
      exact before
    rw [accepted.keys second, first]

/-- Whatever CommitTransaction returns, the transaction is in the wallet, its inputs are flagged and
no other output, and the reserved key has left the pool. -/
theorem commitTransaction_recorded {answers : CommitAnswers} {wtxNew : CWalletTx} {state : CommitState} {answer : Bool}
    (known : ∀ wtx : CWalletTx, state.wallet.txs.mapWallet[wtxNew.getHash]? = some wtx →
      wtx.toCTransaction = wtxNew.toCTransaction)
    (run : (commitTransaction answers wtxNew state).2 = .ok answer) :
    state.Recorded wtxNew (commitTransaction answers wtxNew state).1 := by
  unfold commitTransaction at run ⊢
  dsimp only at run ⊢
  have added := SpendingWallet.addToWallet_added answers answers.fWritten
    (w := { state.wallet with keys := (state.reservekey.keepKey state.wallet.keys).1 }) known
  cases add : ({ state.wallet with keys := (state.reservekey.keepKey state.wallet.keys).1 } : SpendingWallet).addToWallet
      answers wtxNew answers.fWritten with
  | mk wallet answer' =>
      rw [add] at run added
      cases answer' with
      | error failure => simp at run
      | ok done =>
          dsimp only at run ⊢
          have marked : (TxWallet.markCoins wtxNew.vin wallet.txs).2 = .ok () → _ :=
            TxWallet.markCoins_kept wtxNew.getHash fun _ member => member
          cases mark : TxWallet.markCoins wtxNew.vin wallet.txs with
          | mk txs answer' =>
              rw [mark] at run marked
              cases answer' with
              | error failure => simp at run
              | ok done =>
                  obtain ⟨coins, flagged⟩ := marked rfl
                  dsimp only at run coins flagged ⊢
                  obtain ⟨wtx, found, transaction⟩ := added.holds
                  obtain ⟨after, found', transaction', _⟩ := coins.entry _ wtx found
                  have accepted := SpendingWallet.acceptToMemoryPool_added answers (w := { wallet with txs })
                    ⟨after, found', transaction'.trans transaction⟩
                  cases accept : ({ wallet with txs } : SpendingWallet).acceptToMemoryPool answers wtxNew.toCTransaction with
                  | mk final verdict =>
                      rw [accept] at run accepted
                      cases verdict with
                      | error failure => simp at run
                      | ok fAccepted =>
                          cases fAccepted with
                          | false => exact .of_steps added coins flagged accepted rfl
                          | true => exact .of_steps added coins flagged accepted rfl

end

namespace Sample

/-- A wallet with a confirmed payment of 50, and a reserved key. -/
def readyToSend : CommitState where
  wallet := ⟨walletOf [confirmedTx income []], ⟨{2}, (∅ : Std.ExtTreeMap Int CKeyPool).insert 1 ⟨⟨List.replicate 33 2⟩⟩,
    [], .empty, false, true, 0⟩⟩
  reservekey := ⟨1, ⟨List.replicate 33 2⟩⟩
  mapRequestCount := ∅
  relayed := []

/-- The memory pool refuses the transaction. -/
def refusing : CommitAnswers := ⟨keySource 1, oneBlock, true, true, fun _ => true, false⟩

end Sample

open Sample in
/-- CommitTransaction returns false, the payment is marked spent and the record of the key is gone. -/
theorem commitTransaction_not_atomic :
    (commitTransaction refusing (.ofTransaction expense) readyToSend).2 = .ok false ∧
      (readyToSend.wallet.txs.mapWallet[income.getHash]?.map fun wtx => wtx.isSpent 0) = some false ∧
      ((commitTransaction refusing (.ofTransaction expense) readyToSend).1.wallet.txs.mapWallet[income.getHash]?.map
        fun wtx => wtx.isSpent 0) = some true ∧
      readyToSend.wallet.keys.pool[(1 : Int)]?.isSome ∧
      (commitTransaction refusing (.ofTransaction expense) readyToSend).1.wallet.keys.pool[(1 : Int)]? = none := by
  refine ⟨by decide +kernel, by decide +kernel, by decide +kernel, by decide +kernel, by decide +kernel⟩

open Sample in
theorem commitTransaction_recorded_refused :
    readyToSend.Recorded (.ofTransaction expense) (commitTransaction refusing (.ofTransaction expense) readyToSend).1 := by
  have unknown : readyToSend.wallet.txs.mapWallet[expense.getHash]? = none := by decide +kernel
  have run : (commitTransaction refusing (.ofTransaction expense) readyToSend).2 = .ok false := by decide +kernel
  exact commitTransaction_recorded (fun wtx found => absurd (unknown.symm.trans found) (by simp)) run

end BitCrystal
