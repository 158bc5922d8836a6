import BitCrystal.CoinSelection
import BitCrystal.CommitTransaction
import BitCrystal.Mempool

namespace BitCrystal

open Data CScript

/-! # CreateTransaction -/

/-! ## The available coins -/

structure CCoinControl where
  destChange : CTxDestination
  setSelected : List COutPoint

namespace CCoinControl

def hasSelected (coinControl : CCoinControl) : Bool := !coinControl.setSelected.isEmpty

def isSelected (coinControl : CCoinControl) (outpoint : COutPoint) : Bool :=
  coinControl.setSelected.contains outpoint

end CCoinControl

def Coin.outpoint (coin : Coin) : COutPoint := ⟨coin.hash, UInt32.ofNat coin.i⟩

/-- What a selection reads besides the wallet; `fuel` is for the work queue of IsConfirmed. -/
structure SelectionContext where
  chain : MainChain
  fuel : Nat
  setLockedCoins : List COutPoint
  coinControl : Option CCoinControl

section

variable [Hashing] [ScriptDigests]

/-- The output is listed by AvailableCoins if its transaction is. -/
def Coin.listed (coin : Coin) (w : TxWallet) (context : SelectionContext) : Bool :=
  !coin.tx.isSpent coin.i && w.isMine coin.txout && !context.setLockedCoins.contains coin.outpoint &&
    decide (0 < coin.value) &&
    context.coinControl.all fun coinControl => !coinControl.hasSelected || coinControl.isSelected coin.outpoint

/-- The outputs of one wallet transaction that AvailableCoins lists. -/
def CWalletTx.availableOutputs (wtx : CWalletTx) (hash : UInt256) (w : TxWallet) (context : SelectionContext) :
    List COutput :=
  (List.finRange wtx.vout.length).filterMap fun i : Fin wtx.vout.length =>
    let coin : Coin := ⟨hash, wtx, i, i.isLt⟩
    if coin.listed w context then some { coin with nDepth := wtx.getDepthInMainChain context.chain } else none

namespace TxWallet

/-- One turn of AvailableCoins. -/
def listOutputs (w : TxWallet) (context : SelectionContext) (fOnlyConfirmed : Bool) (vCoins : List COutput)
    (entry : UInt256 × CWalletTx) : Except Failure (List COutput) := do
  if !entry.2.isFinalNow context.chain then return vCoins
  let fConfirmed ← (if fOnlyConfirmed then entry.2.isConfirmed context.chain w context.fuel else .ok true)
  if !fConfirmed then return vCoins
  if entry.2.immature context.chain then return vCoins
  return vCoins ++ entry.2.availableOutputs entry.1 w context

def availableCoins (w : TxWallet) (context : SelectionContext) (fOnlyConfirmed : Bool) : Except Failure (List COutput) :=
  w.entries.foldlM (w.listOutputs context fOnlyConfirmed) []

/-- The return value, `setCoinsRet` and `nValueRet`; `chance` is that of the three attempts. -/
def selectCoins (w : TxWallet) (context : SelectionContext) (chance : Nat → SelectionChance) (nTargetValue : Int) :
    Except Failure (Bool × List Coin × Int) := do
  let vCoins ← w.availableCoins context true
  -- coin control: return all selected outputs
  if context.coinControl.any CCoinControl.hasSelected then
    let taken ← takeCoins (vCoins.map COutput.toCoin)
    return (decide (nTargetValue ≤ taken.2), taken)
  else
    let first ← selectCoinsMinConf w nTargetValue 1 6 (chance 0) vCoins
    if first.1 then return first
    let second ← selectCoinsMinConf w nTargetValue 1 1 (chance 1) vCoins
    if second.1 then return second
    selectCoinsMinConf w nTargetValue 0 1 (chance 2) vCoins

end TxWallet

theorem CWalletTx.mem_availableOutputs {wtx : CWalletTx} {hash : UInt256} {w : TxWallet} {context : SelectionContext}
    {output : COutput} (member : output ∈ wtx.availableOutputs hash w context) :
    output.hash = hash ∧ output.tx = wtx ∧ output.listed w context = true := by
  obtain ⟨i, -, made⟩ := List.mem_filterMap.mp member
  simp only at made
  split at made
  · cases made
    exact ⟨rfl, rfl, ‹_›⟩
  · cases made

theorem CWalletTx.availableOutputs_distinct (wtx : CWalletTx) (hash : UInt256) (w : TxWallet)
    (context : SelectionContext) : ((wtx.availableOutputs hash w context).map COutput.toCoin).Nodup := by
  rw [availableOutputs, List.map_filterMap]
  refine (List.nodup_finRange _).filterMap fun first second coin made other => ?_
  simp only [Option.mem_def] at made other
  split at made
  · split at other
    · cases made
      simpa [Fin.ext_iff, eq_comm] using other
    · cases other
  · cases made

namespace TxWallet

variable {w : TxWallet} {context : SelectionContext} {vCoins : List COutput}

theorem listOutputs_cases {fOnlyConfirmed : Bool} {entry : UInt256 × CWalletTx} {next : List COutput}
    (step : w.listOutputs context fOnlyConfirmed vCoins entry = .ok next) :
    next = vCoins ∨ next = vCoins ++ entry.2.availableOutputs entry.1 w context := by
  unfold listOutputs at step
  split at step
  · exact .inl (pure_eq_ok.mp step).symm
  · obtain ⟨fConfirmed, -, step⟩ := bind_eq_ok.mp step
    split at step
    · exact .inl (pure_eq_ok.mp step).symm
    · split at step
      · exact .inl (pure_eq_ok.mp step).symm
      · exact .inr (pure_eq_ok.mp step).symm

theorem availableCoins_sublist {fOnlyConfirmed : Bool} (run : w.availableCoins context fOnlyConfirmed = .ok vCoins) :
    vCoins.Sublist (w.entries.flatMap fun entry => entry.2.availableOutputs entry.1 w context) := by
  have listed := foldlM_relation (fun entries (state last : List COutput) => ∃ part, last = state ++ part ∧
    part.Sublist (entries.flatMap fun entry => entry.2.availableOutputs entry.1 w context)) ?_ ?_ run
  · obtain ⟨part, rfl, inside⟩ := listed
    exact inside
  · exact fun state => ⟨[], (List.append_nil state).symm, .slnil⟩
  · rintro entry rest state next last step ⟨part, rfl, inside⟩
    rw [List.flatMap_cons]
    rcases listOutputs_cases step with rfl | rfl
    · exact ⟨part, rfl, inside.trans (List.sublist_append_right _ _)⟩
    · exact ⟨_ ++ part, List.append_assoc .., (List.Sublist.refl _).append inside⟩

theorem availableCoins_mem {fOnlyConfirmed : Bool} (run : w.availableCoins context fOnlyConfirmed = .ok vCoins)
    {output : COutput} (member : output ∈ vCoins) :
    w.mapWallet[output.hash]? = some output.tx ∧ output.listed w context = true := by
  obtain ⟨entry, inWallet, inside⟩ := List.mem_flatMap.mp ((availableCoins_sublist run).subset member)
  obtain ⟨hash, tx, listed⟩ := CWalletTx.mem_availableOutputs inside
  rw [hash, tx]
  exact ⟨mem_entries.mp inWallet, listed⟩

theorem availableCoins_available {fOnlyConfirmed : Bool}
    (run : w.availableCoins context fOnlyConfirmed = .ok vCoins) : Available vCoins := by
  constructor
  · refine List.Nodup.sublist ((availableCoins_sublist run).map COutput.toCoin) ?_
    rw [List.map_flatMap, List.nodup_flatMap]
    refine ⟨fun entry _ => entry.2.availableOutputs_distinct entry.1 w context, ?_⟩
    have keys := toList_keys_nodup w.mapWallet
    rw [List.Nodup, List.pairwise_map] at keys
    refine keys.imp fun {first second} different coin one two => ?_
    obtain ⟨output, inFirst, rfl⟩ := List.mem_map.mp one
    obtain ⟨other, inSecond, same⟩ := List.mem_map.mp two
    refine different ?_
    rw [← (CWalletTx.mem_availableOutputs inFirst).1, ← (CWalletTx.mem_availableOutputs inSecond).1, same]
  · intro output member
    obtain ⟨-, listed⟩ := availableCoins_mem run member
    simp only [Coin.listed, Bool.and_eq_true, decide_eq_true_eq] at listed
    exact listed.1.2.le

theorem selectCoins_selected {chance : Nat → SelectionChance} {nTargetValue : Int} {result : Bool × List Coin × Int}
    (run : w.selectCoins context chance nTargetValue = .ok result) (found : result.1 = true) :
    ∃ vCoins, w.availableCoins context true = .ok vCoins ∧
      Selected nTargetValue (vCoins.map COutput.toCoin) result.2 := by
  obtain ⟨vCoins, listed, run⟩ := bind_eq_ok.mp run
  refine ⟨vCoins, listed, ?_⟩
  have available := availableCoins_available listed
  have attempt {nConfMine nConfTheirs : Int} {chance : SelectionChance} {result : Bool × List Coin × Int}
      (run : selectCoinsMinConf w nTargetValue nConfMine nConfTheirs chance vCoins = .ok result)
      (found : result.1 = true) : Selected nTargetValue (vCoins.map COutput.toCoin) result.2 := by
    obtain ⟨distinct, subset, total, reached⟩ := ((selectCoinsMinConf_sat available chance).of_ok run).1 found
    exact ⟨distinct, fun coin member => (List.filter_sublist.map COutput.toCoin).subset (subset coin member), total,
      reached⟩
  split at run
  · obtain ⟨taken, took, same⟩ := bind_eq_ok.mp run
    cases same
    obtain ⟨distinct, subset, total, -⟩ :=
      (takeCoins_selected available.distinct (List.Subset.refl _) (Int.le_refl _)).of_ok took
    exact ⟨distinct, subset, total, of_decide_eq_true found⟩
  · obtain ⟨first, firstRun, run⟩ := bind_eq_ok.mp run
    split at run
    · cases run
      exact attempt firstRun found
    · obtain ⟨second, secondRun, run⟩ := bind_eq_ok.mp run
      split at run
      · cases run
        exact attempt secondRun found
      · exact attempt run found

end TxWallet

/-! ## The transaction -/

/-- `CScript::SetDestination` -/
def CScript.setDestination : CTxDestination → CScript
  | .CNoDestination => []
  | .CKeyID keyID => scriptForKey keyID
  | .CScriptID scriptID => [OP_HASH160] ++ pushData (littleEndian 20 scriptID.toNat) ++ [OP_EQUAL]

/-- Where SetMerkleBranch finds a transaction, and the depth that it returns. -/
structure MerklePlace where
  hashBlock : UInt256
  vMerkleBranch : List UInt256
  nIndex : Int
  nDepth : Int

/-- The transaction after SetMerkleBranch. -/
def CMerkleTx.setPlace (tx : CMerkleTx) (place : MerklePlace) : CMerkleTx :=
  { tx with hashBlock := place.hashBlock, vMerkleBranch := place.vMerkleBranch, nIndex := place.nIndex }

/-- What CreateTransaction reads besides the wallet, with what it leaves to chance. -/
structure CreateContext extends SelectionContext where
  settings : Settings
  nTransactionFee : Int
  nMinTxFee : Int
  source : KeySource
  /-- The choices of the selection, by turn and attempt. -/
  chance : Nat → Nat → SelectionChance
  /-- The number that GetRandInt takes modulo its argument, by turn. -/
  random : Nat → Nat
  /-- The order of the pointers in a set of coins. -/
  order : List Coin → List Coin
  order_perm : ∀ setCoins, (order setCoins).Perm setCoins
  /-- The scriptSig that SignSignature writes for an output script and an input, and its answer. -/
  signSignature : CScript → CTransaction → Nat → CScript × Bool
  setMerkleBranch : CMerkleTx → MerklePlace
  /-- For the work queue of AddSupportingTransactions. -/
  supportFuel : Nat

/-- The change address of the coin control, if it has one. -/
def CreateContext.changeAddress (context : CreateContext) : Option CTxDestination :=
  (context.coinControl.map CCoinControl.destChange).filter fun address => address ≠ .CNoDestination

/-- The variables that CreateTransaction hands back, with the wallet. -/
structure Creation where
  wallet : SpendingWallet
  wtxNew : CWalletTx
  reservekey : CReserveKey
  nFeeRet : Int
  strFailReason : String

/-- How a turn of the loop ends. -/
inductive Turn where
  | again (c : Creation)
  | returns (c : Creation) (fReturn : Bool)

/-- `nValue`, unless an amount is found to be negative. -/
def payTotal : List (CScript × Int64) → Int → Except Failure (Option Int)
  | [], nValue => .ok (if nValue < 0 then none else some nValue)
  | s :: vecSend, nValue =>
      if nValue < 0 then .ok none
      else do
        let nValue ← addInt64 nValue s.2.toInt
        payTotal vecSend nValue

def payees (vecSend : List (CScript × Int64)) : List CTxOut := vecSend.map fun s => ⟨s.2, s.1⟩

namespace Creation

variable (context : CreateContext)

def fail (c : Creation) (strFailReason : String) : Turn := .returns { c with strFailReason } false

/-- The caller's reserve key goes back to the pool. -/
def returnKey (c : Creation) : Creation :=
  let (keys, reservekey) := c.reservekey.returnKey c.wallet.keys
  { c with wallet := { c.wallet with keys }, reservekey }

/-- The script of the change: the address of the coin control, or a reserved key. -/
def scriptChange (c : Creation) : Except Failure (Creation × CScript) :=
  match context.changeAddress with
  | some address => .ok (c, setDestination address)
  | none =>
      match c.reservekey.getReservedKey context.source c.wallet.keys with
      | (_, _, .error what) => .error (keyFailure what)
      | (_, _, .ok none) => .error (.undefined "assert(reservekey.GetReservedKey(vchPubKey))")
      | (keys, reservekey, .ok (some vchPubKey)) =>
          .ok ({ c with wallet := { c.wallet with keys }.learnKeys, reservekey },
            setDestination (.CKeyID vchPubKey.getID))

/-- Fill a vout to ourself. -/
def addChange (c : Creation) (nTurn : Nat) (nChange : Int) : Except Failure Creation :=
  if 0 < nChange then do
    let (c, scriptChange) ← c.scriptChange context
    let newTxOut : CTxOut := ⟨Int64.ofInt nChange, scriptChange⟩
    -- never create dust outputs; if we would, just add the dust to the fee
    if newTxOut.isDust context.settings then
      let nFeeRet ← addInt64 c.nFeeRet nChange
      return { c with nFeeRet }.returnKey
    else
      let position := context.random nTurn % (c.wtxNew.vout.length + 1)
      return { c with wtxNew.vout := c.wtxNew.vout.insertIdx position newTxOut }
  else return c.returnKey

end Creation

/-- `CTxIn(coin.first->GetHash(), coin.second)` -/
def Coin.txin (coin : Coin) : CTxIn := ⟨⟨coin.tx.getHash, UInt32.ofNat coin.i⟩, [], 0xffffffff⟩

/-- The signatures one after the other, as long as SignSignature returns true. -/
def signInputs (context : CreateContext) : List (Coin × Nat) → CTransaction → CTransaction × Bool
  | [], txNew => (txNew, true)
  | (coin, nIn) :: rest, txNew =>
      let (scriptSig, fSigned) := context.signSignature coin.txout.scriptPubKey txNew nIn
      let txNew := { txNew with vin := txNew.vin.modify nIn fun txin => { txin with scriptSig } }
      if fSigned then signInputs context rest txNew else (txNew, false)

/-- The work queue of AddSupportingTransactions; of several transactions with one hash
`mapWalletPrev` keeps the last. -/
def supportingTransactions (context : CreateContext) (w : TxWallet) :
    Nat → List UInt256 → List CMerkleTx → List UInt256 → List CMerkleTx → Except Failure (List CMerkleTx)
  | _, [], _, _, vtxPrev => .ok vtxPrev
  | 0, _ :: _, _, _, _ => .error .endless
  | fuel + 1, hash :: vWorkQueue, mapWalletPrev, setAlreadyDone, vtxPrev =>
      if hash ∈ setAlreadyDone then supportingTransactions context w fuel vWorkQueue mapWalletPrev setAlreadyDone vtxPrev
      else
        let (tx, mapWalletPrev) := match w.mapWallet[hash]? with
          | some wtx => (wtx.toCMerkleTx, wtx.vtxPrev.reverse ++ mapWalletPrev)
          | none =>
              match mapWalletPrev.find? fun prev : CMerkleTx => prev.getHash = hash with
              | some prev => (prev, mapWalletPrev)
              | none => (.ofTransaction ⟨1, [], [], 0, []⟩, mapWalletPrev)
        let place := context.setMerkleBranch tx
        let vWorkQueue := if place.nDepth < 3 then vWorkQueue ++ tx.vin.map (fun txin : CTxIn => txin.prevout.hash) else vWorkQueue
        supportingTransactions context w fuel vWorkQueue mapWalletPrev (hash :: setAlreadyDone)
          (vtxPrev ++ [tx.setPlace place])

def CWalletTx.addSupportingTransactions (wtx : CWalletTx) (context : CreateContext) (w : TxWallet) :
    Except Failure CWalletTx := do
  let place := context.setMerkleBranch wtx.toCMerkleTx
  let vWorkQueue := if place.nDepth < 3 then wtx.vin.map fun txin => txin.prevout.hash else []
  let vtxPrev ← supportingTransactions context w context.supportFuel vWorkQueue [] [] []
  return { wtx with toCMerkleTx := wtx.toCMerkleTx.setPlace place, vtxPrev := vtxPrev.reverse }

namespace Creation

variable (context : CreateContext) (vecSend : List (CScript × Int64)) (nValue : Int)

/-- Signs the inputs, limits the size and checks that enough fee is included. GetMinFee does not look at
the priority, which is left out. -/
def finish (c : Creation) (coins : List Coin) : Except Failure Turn :=
  let (txNew, fSigned) :=
    signInputs context coins.zipIdx { c.wtxNew.toCTransaction with vin := coins.map Coin.txin }
  let c := { c with wtxNew.toCTransaction := txNew }
  if !fSigned then .ok (c.fail "Signing transaction failed")
  else
    let nBytes := txNew.getSerializeSize
    if MAX_STANDARD_TX_SIZE ≤ nBytes + 4000 ∨ 160 ≤ txNew.vin.length then .ok (c.fail "Transaction too large")
    else do
      let nPayFee ← mulInt64 context.nTransactionFee (1 + nBytes / 1000 : Nat)
      let nMinFee := CTransaction.getMinFee
      if c.nFeeRet < max nPayFee nMinFee then return .again { c with nFeeRet := max nPayFee nMinFee }
      else
        let wtxNew ← c.wtxNew.addSupportingTransactions context c.wallet.txs
        return .returns { c with wtxNew } true

def turn (nTurn : Nat) (c : Creation) : Except Failure Turn := do
  let nTotalValue ← addInt64 nValue c.nFeeRet
  let accepted := (payees vecSend).takeWhile fun txout => !txout.isDust context.settings
  let c := { c with wtxNew := { c.wtxNew with vin := [], vout := accepted, fFromMe := true } }
  if accepted.length < vecSend.length then return c.fail "Transaction amount too small"
  else
    -- choose coins to use
    let selection ← c.wallet.txs.selectCoins context.toSelectionContext (context.chance nTurn) nTotalValue
    if !selection.1 then return c.fail "Insufficient funds"
    else
      let nChange ← subInt64 selection.2.2 nValue
      let nChange ← subInt64 nChange c.nFeeRet
      -- if sub-cent change is required, the fee must be raised to at least nMinTxFee
      let nMoveToFee ← (if c.nFeeRet < context.nMinTxFee ∧ 0 < nChange ∧ nChange < CENT then
          return min nChange (← subInt64 context.nMinTxFee c.nFeeRet)
        else .ok 0 : Except Failure Int)
      let c ← { c with nFeeRet := c.nFeeRet + nMoveToFee }.addChange context nTurn (nChange - nMoveToFee)
      c.finish context (context.order selection.2.1)

def loop : Nat → Nat → Creation → Except Failure (Creation × Bool)
  | 0, _, _ => .error .endless
  | fuel + 1, nTurn, c => do
      match ← c.turn context vecSend nValue nTurn with
      | .again c => loop fuel (nTurn + 1) c
      | .returns c fReturn => return (c, fReturn)

end Creation

/-- CreateTransaction, with `fuel` for its loop. -/
def createTransaction (context : CreateContext) (fuel : Nat) (vecSend : List (CScript × Int64)) (c : Creation) :
    Except Failure (Creation × Bool) := do
  match ← payTotal vecSend 0 with
  | none => return ({ c with strFailReason := "Transaction amounts must be positive" }, false)
  | some nValue =>
      if vecSend = [] then return ({ c with strFailReason := "Transaction amounts must be positive" }, false)
      else
        Creation.loop context vecSend nValue fuel 0
          { c with wtxNew := c.wtxNew.bindWallet, nFeeRet := context.nTransactionFee }

/-! ## What is created -/

omit [Hashing] [ScriptDigests] in
theorem payTotal_eq {vecSend : List (CScript × Int64)} {start nValue : Int}
    (run : payTotal vecSend start = .ok (some nValue)) :
    nValue = start + ((payees vecSend).map CTxOut.value).sum := by
  induction vecSend generalizing start with
  | nil =>
      simp only [payTotal, Except.ok.injEq] at run
      split at run
      · cases run
      · cases run
        simp [payees]
  | cons s rest ih =>
      rw [payTotal] at run
      split at run
      · cases run
      · obtain ⟨next, added, remaining⟩ := bind_eq_ok.mp run
        obtain ⟨-, rfl⟩ := addInt64_eq_ok.mp added
        rw [ih remaining]
        simp only [payees, List.map_cons, List.sum_cons, CTxOut.value]
        omega

/-- Two transactions that differ in the scripts of their inputs only. -/
structure SameButScripts (tx other : CTransaction) : Prop where
  prevouts : tx.vin.map CTxIn.prevout = other.vin.map CTxIn.prevout
  vout : tx.vout = other.vout

omit [Hashing] [ScriptDigests] in
theorem signInputs_same (context : CreateContext) (entries : List (Coin × Nat)) (tx : CTransaction) :
    SameButScripts (signInputs context entries tx).1 tx := by
  induction entries generalizing tx with
  | nil => exact ⟨rfl, rfl⟩
  | cons entry rest ih =>
      obtain ⟨coin, nIn⟩ := entry
      have one (scriptSig : CScript) : (tx.vin.modify nIn fun txin => { txin with scriptSig }).map CTxIn.prevout =
          tx.vin.map CTxIn.prevout := by
        refine List.ext_getElem? fun i => ?_
        rw [List.getElem?_map, List.getElem?_map, List.getElem?_modify]
        cases tx.vin[i]? with
        | none => rfl
        | some txin =>
            simp only [Option.map_some]
            split <;> rfl
      rw [signInputs]
      simp only
      split
      · obtain ⟨prevouts, vout⟩ := ih _
        exact ⟨prevouts.trans (one _), vout⟩
      · exact ⟨one _, rfl⟩

omit [ScriptDigests] in
theorem CWalletTx.addSupportingTransactions_same {wtx next : CWalletTx} {context : CreateContext} {w : TxWallet}
    (run : wtx.addSupportingTransactions context w = .ok next) : next.toCTransaction = wtx.toCTransaction := by
  obtain ⟨vtxPrev, -, same⟩ := bind_eq_ok.mp run
  cases same
  rfl

/-- The change goes to the address of the coin control, or else to the key of the reserve key, which is
the default key where the pool is empty. -/
structure PaysChange (context : CreateContext) (c : Creation) (scriptPubKey : CScript) : Prop where
  custom : ∀ address, context.changeAddress = some address → scriptPubKey = setDestination address
  reserved : context.changeAddress = none → scriptPubKey = setDestination (.CKeyID c.reservekey.vchPubKey.getID) ∧
    (c.reservekey.nIndex = -1 → c.reservekey.vchPubKey = c.wallet.keys.vchDefaultKey)

def CreateContext.requiredFee (context : CreateContext) (tx : CTransaction) : Int :=
  max (context.nTransactionFee * (1 + tx.getSerializeSize / 1000 : Nat)) CTransaction.getMinFee

/-- The payees' outputs, with at most one output of change somewhere among them. -/
def WithChange (context : CreateContext) (c : Creation) (paid : List CTxOut) : Prop :=
  c.wtxNew.vout = paid ∨ ∃ position ≤ paid.length, ∃ change : CTxOut,
    c.wtxNew.vout = paid.insertIdx position change ∧ 0 < change.value ∧ PaysChange context c change.scriptPubKey

omit [Hashing] in
/-- A key that is handed out is remembered; without an index it is the default key. -/
theorem CReserveKey.getReservedKey_key {reserve reserved : CReserveKey} {source : KeySource} {wallet next : CWallet}
    {vchPubKey : CPubKey} (run : reserve.getReservedKey source wallet = (next, reserved, .ok (some vchPubKey))) :
    reserved.vchPubKey = vchPubKey ∧ (reserved.nIndex = -1 → reserved.vchPubKey = next.vchDefaultKey) := by
  unfold getReservedKey at run
  split at run
  · simp only at run
    split at run
    · simp at run
    · split at run
      · cases run
        exact ⟨rfl, fun none => absurd none ‹_›⟩
      · split at run
        · cases run
          exact ⟨rfl, fun _ => rfl⟩
        · simp at run
  · split at run
    · cases run
      exact ⟨rfl, fun none => absurd none ‹_›⟩
    · simp at run

omit [Hashing] in
theorem WithChange.of_same {context : CreateContext} {c next : Creation} {paid : List CTxOut}
    (change : WithChange context c paid)
    (vout : next.wtxNew.vout = c.wtxNew.vout) (reservekey : next.reservekey = c.reservekey)
    (wallet : next.wallet = c.wallet) : WithChange context next paid := by
  rcases change with same | ⟨position, bound, change, outputs, positive, custom, reserved⟩
  · exact .inl (vout.trans same)
  · refine .inr ⟨position, bound, change, vout.trans outputs, positive, custom, fun none => ?_⟩
    rw [reservekey, wallet]
    exact reserved none

omit [Hashing] in
theorem WithChange.nonneg {context : CreateContext} {c : Creation} {vecSend : List (CScript × Int64)}
    (change : WithChange context c (payees vecSend)) (positive : ∀ s ∈ vecSend, 0 < s.2.toInt) {txout : CTxOut}
    (member : txout ∈ c.wtxNew.vout) : 0 ≤ txout.value := by
  have payee (txout : CTxOut) (paid : txout ∈ payees vecSend) : 0 ≤ txout.value := by
    obtain ⟨s, send, rfl⟩ := List.mem_map.mp paid
    exact (positive s send).le
  rcases change with same | ⟨position, bound, change, outputs, more, -⟩
  · exact payee txout (same ▸ member)
  · rw [outputs, List.mem_insertIdx bound] at member
    rcases member with rfl | paid
    · exact more.le
    · exact payee txout paid

namespace Creation

variable {context : CreateContext} {c next : Creation}

omit [Hashing] in
theorem scriptChange_pays {script : CScript} (run : c.scriptChange context = .ok (next, script)) :
    PaysChange context next script ∧ next.wtxNew = c.wtxNew ∧ next.nFeeRet = c.nFeeRet ∧
      next.wallet.txs.mapWallet = c.wallet.txs.mapWallet := by
  unfold scriptChange at run
  cases chosen : context.changeAddress with
  | some address =>
      rw [chosen] at run
      cases run
      refine ⟨⟨fun other same => ?_, fun none => ?_⟩, rfl, rfl, rfl⟩
      · rw [chosen] at same
        exact congrArg setDestination (Option.some.inj same)
      · rw [chosen] at none
        cases none
  | none =>
      rw [chosen] at run
      simp only at run
      split at run
      · cases run
      · cases run
      · rename_i keys reservekey vchPubKey got
        cases run
        obtain ⟨same, pool⟩ := CReserveKey.getReservedKey_key got
        refine ⟨⟨fun other custom => ?_, fun _ => ⟨same ▸ rfl, pool⟩⟩, rfl, rfl, rfl⟩
        rw [chosen] at custom
        cases custom

omit [Hashing] in
theorem addChange_balanced {nTurn : Nat} {nChange : Int} (run : c.addChange context nTurn nChange = .ok next)
    (nonneg : 0 ≤ nChange) (range : int64Range nChange) :
    WithChange context next c.wtxNew.vout ∧
      (next.wtxNew.vout.map CTxOut.value).sum + next.nFeeRet =
        (c.wtxNew.vout.map CTxOut.value).sum + c.nFeeRet + nChange ∧
      c.nFeeRet ≤ next.nFeeRet ∧ next.wallet.txs.mapWallet = c.wallet.txs.mapWallet := by
  unfold addChange at run
  split at run
  · rename_i positive
    obtain ⟨⟨between, script⟩, changed, run⟩ := bind_eq_ok.mp run
    obtain ⟨pays, wtx, fee, wallet⟩ := scriptChange_pays changed
    simp only at run
    split at run
    · obtain ⟨nFeeRet, added, same⟩ := bind_eq_ok.mp run
      obtain ⟨-, rfl⟩ := addInt64_eq_ok.mp added
      cases same
      refine ⟨.inl (congrArg (fun wtx : CWalletTx => wtx.vout) wtx), ?_, ?_, wallet⟩
      · simp only [returnKey, wtx, fee]
        omega
      · simp only [returnKey, fee]
        omega
    · cases run
      have value : CTxOut.value ⟨Int64.ofInt nChange, script⟩ = nChange :=
        Int64.toInt_ofInt_of_le range.1 (by have := range.2; omega)
      have bound : context.random nTurn % (between.wtxNew.vout.length + 1) ≤ between.wtxNew.vout.length :=
        Nat.le_of_lt_succ (Nat.mod_lt _ (Nat.succ_pos _))
      have sum := ((List.perm_insertIdx (⟨Int64.ofInt nChange, script⟩ : CTxOut) between.wtxNew.vout bound).map
        CTxOut.value).sum_eq
      refine ⟨.inr ⟨_, wtx ▸ bound, ⟨Int64.ofInt nChange, script⟩, by rw [wtx], value.symm.subst positive, ?_⟩, ?_, fee.ge, wallet⟩
      · exact ⟨pays.custom, pays.reserved⟩
      · simp only [List.map_cons, List.sum_cons, value, wtx] at sum
        simp only [wtx, fee, sum]
        omega
  · cases run
    have none : nChange = 0 := by omega
    subst none
    exact ⟨.inl rfl, by simp [returnKey], le_refl c.nFeeRet, rfl⟩

/-- What is left of a successful turn after the change. -/
structure Finished (context : CreateContext) (coins : List Coin) (c next : Creation) : Prop where
  inputs : next.wtxNew.vin.map CTxIn.prevout = coins.map fun coin => coin.txin.prevout
  vout : next.wtxNew.vout = c.wtxNew.vout
  reservekey : next.reservekey = c.reservekey
  wallet : next.wallet = c.wallet
  nFeeRet : next.nFeeRet = c.nFeeRet
  enough : context.requiredFee next.wtxNew.toCTransaction ≤ next.nFeeRet

omit [ScriptDigests] in
theorem finish_returns {coins : List Coin} (run : c.finish context coins = .ok (.returns next true)) :
    Finished context coins c next := by
  have signed := signInputs_same context coins.zipIdx
    { c.wtxNew.toCTransaction with vin := coins.map Coin.txin }
  unfold finish at run
  split at run
  rename_i txNew fSigned signing
  rw [signing] at signed
  simp only at run
  split at run
  · cases run
  · split at run
    · cases run
    · obtain ⟨nPayFee, product, run⟩ := bind_eq_ok.mp run
      have pay : nPayFee = context.nTransactionFee * (1 + txNew.getSerializeSize / 1000 : Nat) := by
        unfold mulInt64 at product
        split at product
        · cases product
          rfl
        · cases product
      split at run
      · cases run
      · rename_i enough
        obtain ⟨wtxNew, supported, same⟩ := bind_eq_ok.mp run
        cases same
        have tx := CWalletTx.addSupportingTransactions_same supported
        refine ⟨?_, ?_, rfl, rfl, rfl, ?_⟩
        · rw [tx, signed.prevouts, List.map_map]
          rfl
        · rw [tx]
          exact signed.vout
        · rw [tx, CreateContext.requiredFee, ← pay]
          exact Int.not_lt.mp enough

omit [ScriptDigests] in
theorem finish_again {coins : List Coin} (run : c.finish context coins = .ok (.again next)) :
    next.wallet = c.wallet ∧ c.nFeeRet < next.nFeeRet := by
  unfold finish at run
  split at run
  simp only at run
  split at run
  · cases run
  · split at run
    · cases run
    · obtain ⟨nPayFee, -, run⟩ := bind_eq_ok.mp run
      split at run
      · rename_i less
        cases run
        exact ⟨rfl, less⟩
      · obtain ⟨wtxNew, -, same⟩ := bind_eq_ok.mp run
        cases same

/-- What CreateTransaction accounts for when it returns true. -/
structure Balanced (context : CreateContext) (mapWallet : Std.ExtTreeMap UInt256 CWalletTx)
    (vecSend : List (CScript × Int64)) (coins : List Coin) (c : Creation) : Prop where
  inputs : c.wtxNew.vin.map CTxIn.prevout = coins.map fun coin => coin.txin.prevout
  distinct : coins.Nodup
  spendable : ∀ coin ∈ coins, mapWallet[coin.hash]? = some coin.tx ∧ coin.tx.isSpent coin.i = false ∧ 0 < coin.value
  identity : (coins.map Coin.value).sum = (c.wtxNew.vout.map CTxOut.value).sum + c.nFeeRet
  outputs : WithChange context c (payees vecSend)
  enough : context.requiredFee c.wtxNew.toCTransaction ≤ c.nFeeRet

theorem turn_cases {vecSend : List (CScript × Int64)} {nValue : Int}
    (paid : nValue = ((payees vecSend).map CTxOut.value).sum) {nTurn : Nat} {result : Turn}
    (run : c.turn context vecSend nValue nTurn = .ok result) :
    match result with
    | .again next => next.wallet.txs.mapWallet = c.wallet.txs.mapWallet ∧ c.nFeeRet < next.nFeeRet ∧
        int64Range (nValue + c.nFeeRet)
    | .returns next fReturn => fReturn = true →
        ∃ coins, Balanced context c.wallet.txs.mapWallet vecSend coins next := by
  obtain ⟨nTotalValue, added, run⟩ := bind_eq_ok.mp run
  obtain ⟨range, rfl⟩ := addInt64_eq_ok.mp added
  simp only at run
  split at run
  · cases run
    exact fun impossible => absurd impossible Bool.false_ne_true
  · rename_i all
    have accepted : (payees vecSend).takeWhile (fun txout => !txout.isDust context.settings) = payees vecSend := by
      refine (List.takeWhile_prefix _).eq_of_length (le_antisymm (List.takeWhile_prefix _).length_le ?_)
      rw [payees, List.length_map]
      exact Nat.not_lt.mp all
    simp only [accepted] at run
    obtain ⟨⟨fFound, setCoins, nValueIn⟩, selected, run⟩ := bind_eq_ok.mp run
    simp only at run
    split at run
    · cases run
      exact fun impossible => absurd impossible Bool.false_ne_true
    · rename_i found
      obtain ⟨vCoins, listed, distinct, subset, total, reached⟩ := TxWallet.selectCoins_selected selected (by simpa using found)
      simp only at distinct subset total reached
      obtain ⟨nLeft, left, run⟩ := bind_eq_ok.mp run
      obtain ⟨-, rfl⟩ := subInt64_eq_ok.mp left
      obtain ⟨nChange, left, run⟩ := bind_eq_ok.mp run
      obtain ⟨changeRange, rfl⟩ := subInt64_eq_ok.mp left
      obtain ⟨nMoveToFee, moved, run⟩ := bind_eq_ok.mp run
      obtain ⟨between, changed, run⟩ := bind_eq_ok.mp run
      have move : 0 ≤ nMoveToFee ∧ nMoveToFee ≤ nValueIn - nValue - c.nFeeRet := by
        split at moved
        · obtain ⟨nMore, difference, same⟩ := bind_eq_ok.mp moved
          obtain ⟨-, rfl⟩ := subInt64_eq_ok.mp difference
          cases same
          omega
        · cases moved
          omega
      obtain ⟨outputs, balance, grows, wallet⟩ := addChange_balanced changed (by omega)
        ⟨by have := changeRange.1; omega, by have := changeRange.2; omega⟩
      cases result with
      | again next =>
          obtain ⟨same, more⟩ := finish_again run
          exact ⟨same ▸ wallet, lt_of_le_of_lt (by simp only at grows; omega) more, range⟩
      | returns next fReturn =>
          rintro rfl
          have finished := finish_returns run
          have order := context.order_perm setCoins
          refine ⟨context.order setCoins, finished.inputs, order.nodup_iff.mpr distinct, ?_, ?_, ?_,
            finished.enough⟩
          · intro coin member
            have inside := subset coin (order.mem_iff.mp member)
            obtain ⟨output, inList, rfl⟩ := List.mem_map.mp inside
            obtain ⟨inWallet, listing⟩ := TxWallet.availableCoins_mem listed inList
            simp only [Coin.listed, Bool.and_eq_true, decide_eq_true_eq, Bool.not_eq_true'] at listing
            exact ⟨inWallet, listing.1.1.1.1, listing.1.2⟩
          · have sum : ((context.order setCoins).map Coin.value).sum = nValueIn := by
              rw [(order.map Coin.value).sum_eq, total]
            simp only at balance
            rw [sum, finished.vout, finished.nFeeRet, balance, ← paid]
            omega
          · exact outputs.of_same finished.vout finished.reservekey finished.wallet

theorem loop_balanced {vecSend : List (CScript × Int64)} {nValue : Int}
    (paid : nValue = ((payees vecSend).map CTxOut.value).sum) {fuel nTurn : Nat}
    (run : loop context vecSend nValue fuel nTurn c = .ok (next, true)) :
    ∃ coins, Balanced context c.wallet.txs.mapWallet vecSend coins next := by
  induction fuel generalizing nTurn c with
  | zero => cases run
  | succ fuel ih =>
      obtain ⟨result, turned, run⟩ := bind_eq_ok.mp run
      have step := turn_cases paid turned
      cases result with
      | again between =>
          obtain ⟨wallet, -, -⟩ := step
          exact wallet ▸ ih run
      | returns last fReturn =>
          cases run
          exact step rfl

/-- The fee rises from turn to turn and is bounded, so that the loop comes to an end. -/
theorem loop_ends {vecSend : List (CScript × Int64)} {nValue : Int}
    (paid : nValue = ((payees vecSend).map CTxOut.value).sum) {fuel : Nat} (more nTurn : Nat)
    (enough : (2 ^ 63 - (nValue + c.nFeeRet)).toNat < fuel) :
    loop context vecSend nValue (fuel + more) nTurn c = loop context vecSend nValue fuel nTurn c := by
  induction fuel generalizing nTurn c with
  | zero => cases enough
  | succ fuel ih =>
      rw [Nat.add_right_comm, loop, loop]
      cases turned : c.turn context vecSend nValue nTurn with
      | error failure => rfl
      | ok result =>
          rw [ok_bind, ok_bind]
          have step := turn_cases paid turned
          cases result with
          | returns last fReturn => rfl
          | again between =>
              obtain ⟨-, higher, range⟩ := step
              have below := range.2
              exact ih (nTurn + 1) (by omega)

end Creation

/-- When CreateTransaction returns true, inputs, outputs and fee balance; the outputs are amounts of
money where the inputs together are. -/
theorem createTransaction_balanced {context : CreateContext} {fuel : Nat} {vecSend : List (CScript × Int64)}
    {c next : Creation} (positive : ∀ s ∈ vecSend, 0 < s.2.toInt)
    (run : createTransaction context fuel vecSend c = .ok (next, true)) :
    ∃ coins, Creation.Balanced context c.wallet.txs.mapWallet vecSend coins next ∧
      ((coins.map Coin.value).sum ≤ MAX_MONEY → ∀ txout ∈ next.wtxNew.vout, moneyRange txout.value) := by
  obtain ⟨total, summed, run⟩ := bind_eq_ok.mp run
  cases total with
  | none => cases run
  | some nValue =>
      simp only at run
      split at run
      · cases run
      · obtain ⟨coins, balanced⟩ := Creation.loop_balanced (by simpa using payTotal_eq summed) run
        refine ⟨coins, balanced, fun bounded txout member => moneyRange_iff.mpr ?_⟩
        have nonneg : ∀ value ∈ next.wtxNew.vout.map CTxOut.value, 0 ≤ value := by
          intro value inside
          obtain ⟨txout, output, rfl⟩ := List.mem_map.mp inside
          exact balanced.outputs.nonneg positive output
        have single := List.single_le_sum nonneg txout.value (List.mem_map_of_mem member)
        have identity := balanced.identity
        have fee : 0 ≤ next.nFeeRet := le_trans (le_max_right _ _) balanced.enough
        exact ⟨nonneg txout.value (List.mem_map_of_mem member), by omega⟩

/-- With enough fuel more of it makes no difference. -/
theorem createTransaction_ends (context : CreateContext) (vecSend : List (CScript × Int64)) (c : Creation) :
    ∃ enough, ∀ more, createTransaction context (enough + more) vecSend c = createTransaction context enough vecSend c := by
  cases summed : payTotal vecSend 0 with
  | error failure => exact ⟨0, fun more => by rw [createTransaction, createTransaction, summed]; rfl⟩
  | ok total =>
      cases total with
      | none => exact ⟨0, fun more => by rw [createTransaction, createTransaction, summed]; rfl⟩
      | some nValue =>
          refine ⟨(2 ^ 63 - (nValue + context.nTransactionFee)).toNat + 1, fun more => ?_⟩
          rw [createTransaction, createTransaction, summed]
          simp only [ok_bind]
          split
          · rfl
          · exact Creation.loop_ends (by simpa using payTotal_eq summed) more 0 (Nat.lt_succ_self _)

end

namespace Sample

def controlled (coinControl : CCoinControl) : CreateContext where
  chain := oneBlock
  fuel := 0
  setLockedCoins := []
  coinControl
  settings := ⟨true, false, 0, 0, 0, 2000000000⟩
  nTransactionFee := 0
  nMinTxFee := 0
  source := keySource 1
  chance _ _ := steady
  random := id
  order := id
  order_perm := .refl
  signSignature _ _ _ := (pushData (List.replicate 71 0x30) ++ pushData (List.replicate 33 0x02), true)
  setMerkleBranch _ := ⟨0, [], -1, 0⟩
  supportFuel := 9

/-- A wallet with confirmed payments, and a reserved key. -/
def sender (payments : List CTransaction) : Creation where
  wallet := ⟨walletOf (payments.map fun tx => confirmedTx tx []), readyToSend.wallet.keys⟩
  wtxNew := .ofTransaction ⟨1, [], [], 0, []⟩
  reservekey := readyToSend.reservekey
  nFeeRet := 0
  strFailReason := ""

/-- All the money there is. -/
def fortune (hash : UInt256) : CTransaction := ⟨1, [⟨⟨hash, 0⟩, [], 0⟩], [⟨Int64.ofInt MAX_MONEY, toKeyZero⟩], 0, []⟩

def incomeSelected : CCoinControl := ⟨.CNoDestination, [⟨income.getHash, 0⟩]⟩

/-- Both fortunes are spent, and the change goes to a given key. -/
def fortunesSelected : CCoinControl := ⟨.CKeyID 9, [⟨(fortune 1).getHash, 0⟩, ⟨(fortune 2).getHash, 0⟩]⟩

end Sample

open Sample in
theorem createTransaction_balanced_income : ∃ next coins,
    createTransaction (controlled incomeSelected) 1 [([0x51], 20)] (sender [income]) = .ok (next, true) ∧
      Creation.Balanced (controlled incomeSelected) (sender [income]).wallet.txs.mapWallet [([0x51], 20)] coins next := by
  have returns : (createTransaction (controlled incomeSelected) 1 [([0x51], 20)] (sender [income])).map Prod.snd =
      .ok true := by decide +kernel
  obtain ⟨⟨next, fReturn⟩, run, rfl⟩ := ok_of_map_eq_ok returns
  obtain ⟨coins, balanced, -⟩ := createTransaction_balanced (by decide) run
  exact ⟨next, coins, run, balanced⟩

open Sample in
/-- The change is no amount of money, and it does not go to the reserved key. -/
theorem createTransaction_change_anywhere : ∃ next,
    createTransaction (controlled fortunesSelected) 1 [([0x51], 20)] (sender [fortune 1, fortune 2]) = .ok (next, true) ∧
      ∃ change ∈ next.wtxNew.vout, change ∉ payees [([0x51], 20)] ∧ ¬ moneyRange change.value ∧
        change.scriptPubKey ≠ setDestination (.CKeyID next.reservekey.vchPubKey.getID) := by
  have returns :
      (createTransaction (controlled fortunesSelected) 1 [([0x51], 20)] (sender [fortune 1, fortune 2])).map
        (fun result => (result.2, result.1.wtxNew.vout, result.1.reservekey)) =
      .ok (true, [⟨Int64.ofInt (2 * MAX_MONEY - 20), setDestination (.CKeyID 9)⟩, ⟨20, [0x51]⟩], readyToSend.reservekey) := by
    decide +kernel
  obtain ⟨⟨next, fReturn⟩, run, results⟩ := ok_of_map_eq_ok returns
  simp only [Prod.mk.injEq] at results
  obtain ⟨rfl, vout, reservekey⟩ := results
  refine ⟨next, run, ⟨Int64.ofInt (2 * MAX_MONEY - 20), setDestination (.CKeyID 9)⟩, ?_, ?_⟩
  · rw [vout]
    exact List.mem_cons_self
  · rw [reservekey]
    decide

end BitCrystal
