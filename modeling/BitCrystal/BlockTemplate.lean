import BitCrystal.GetWork
import BitCrystal.KeyPool
import BitCrystal.MempoolRuns

namespace BitCrystal

open Data

/-! # CreateNewBlock

The transactions of the memory pool are put into a priority queue. One that spends outputs of
others in the pool waits until these are in the block. -/

/-! ## The queue -/

/-- The arithmetic of `double`. -/
class DoubleMath where
  Double : Type
  ofInt : Int → Double
  add : Double → Double → Double
  mul : Double → Double → Double
  div : Double → Double → Double
  lt : Double → Double → Bool
  eq : Double → Double → Bool

open DoubleMath

/-- The heap algorithms of the standard library, on a vector whose front is its head. -/
class HeapLibrary where
  makeHeap : {α : Type} → (α → α → Bool) → List α → List α
  pushHeap : {α : Type} → (α → α → Bool) → List α → List α
  popHeap : {α : Type} → (α → α → Bool) → List α → List α
  makeHeap_perm : ∀ {α : Type} (less : α → α → Bool) (values : List α), (makeHeap less values).Perm values
  pushHeap_perm : ∀ {α : Type} (less : α → α → Bool) (values : List α), (pushHeap less values).Perm values
  /-- The front goes to the end. -/
  popHeap_front : ∀ {α : Type} (less : α → α → Bool) (front : α) (rest : List α),
    ∃ others, popHeap less (front :: rest) = others ++ [front] ∧ others.Perm rest

structure TxPriority [DoubleMath] where
  dPriority : Double
  dFeePerKb : Double
  ptx : CTransaction

def txPriorityCompare [DoubleMath] (byFee : Bool) (a b : TxPriority) : Bool :=
  if byFee then
    if eq a.dFeePerKb b.dFeePerKb then lt a.dPriority b.dPriority else lt a.dFeePerKb b.dFeePerKb
  else
    if eq a.dPriority b.dPriority then lt a.dFeePerKb b.dFeePerKb else lt a.dPriority b.dPriority

structure COrphan [DoubleMath] where
  ptx : CTransaction
  setDependsOn : Finset UInt256
  dPriority : Double
  dFeePerKb : Double

/-- `TxPriority(porphan->dPriority, porphan->dFeePerKb, porphan->ptx)` -/
def COrphan.entry [DoubleMath] (porphan : COrphan) : TxPriority :=
  ⟨porphan.dPriority, porphan.dFeePerKb, porphan.ptx⟩

/-- The arguments of the miner, as they are converted to `unsigned int`, and the globals it reads. -/
structure MinerSettings where
  blockmaxsize : UInt32
  blockminsize : UInt32
  nMinTxFee : Int
  fDebug : Bool

namespace MinerSettings

def nBlockMaxSize (miner : MinerSettings) : Nat :=
  max 1000 (min (MAX_BLOCK_SIZE - 1000) miner.blockmaxsize.toNat)

/-- `IS_FREE` is 1. -/
def nBlockPrioritySize : Nat := 1

def nBlockMinSize (miner : MinerSettings) : Nat :=
  min miner.nBlockMaxSize miner.blockminsize.toNat

end MinerSettings

/-- What CreateNewBlock reads of the node. -/
structure MinerContext where
  settings : Settings
  miner : MinerSettings
  mapBlockIndex : BlockMap
  pcoinsTip : CoinsView
  mempool : CTxMemPool
  pindexPrev : WorkTip
  nBestHeight : Int

def MinerContext.nHeight (context : MinerContext) : Int := context.pindexPrev.pindex.nHeight + 1

/-- `unsigned int nTxSize` -/
def CTransaction.nTxSize (tx : CTransaction) : Nat := tx.getSerializeSize % 2 ^ 32

/-! ## Gathering the transactions of the pool -/

section

variable [DoubleMath]

/-- The lists that the first loop fills. A `COrphan*` is a position in `vOrphan`; an orphan that has
been popped is no longer there. -/
structure PoolLists where
  vOrphan : List (Option COrphan)
  mapDependers : UInt256 → List Nat
  vecPriority : List TxPriority

/-- The local variables of the loop over the inputs of one transaction. -/
structure InputScan where
  porphan : Option (Finset UInt256)
  dependers : UInt256 → List Nat
  dPriority : Double
  nTotalIn : Int

def scanInput (context : MinerContext) (id : Nat) (scan : InputScan) (txin : CTxIn) : Except Failure (Option InputScan) :=
  match context.pcoinsTip.coins txin.prevout.hash with
  | none =>
      match context.mempool.mapTx[txin.prevout.hash]? with
      | none =>
          if context.miner.fDebug then .error (.undefined "mempool transaction missing input") else .ok none
      | some parent => do
          -- has to wait for dependencies
          let prev ← expect parent.vout[txin.prevout.n.toNat]? (.undefined "CreateNewBlock")
          let nTotalIn ← addInt64 scan.nTotalIn prev.value
          return some { scan with
            porphan := some (insert txin.prevout.hash (scan.porphan.getD ∅))
            dependers := Function.update scan.dependers txin.prevout.hash (scan.dependers txin.prevout.hash ++ [id])
            nTotalIn }
  | some coins => do
      let prev ← expect coins.vout[txin.prevout.n.toNat]? (.undefined "CreateNewBlock")
      let nTotalIn ← addInt64 scan.nTotalIn prev.value
      let nConf := context.pindexPrev.pindex.nHeight - coins.nHeight + 1
      return some { scan with nTotalIn, dPriority := add scan.dPriority (mul (ofInt prev.value) (ofInt nConf)) }

/-- The loop over the inputs, with whether all of them were found -/
def scanInputs (context : MinerContext) (id : Nat) : List CTxIn → InputScan → Except Failure (InputScan × Bool)
  | [], scan => .ok (scan, true)
  | txin :: rest, scan => do
      match ← scanInput context id scan txin with
      | none => return (scan, false)
      | some scan => scanInputs context id rest scan

/-- One turn of the loop over the pool -/
def gather (context : MinerContext) (g : PoolLists) (tx : CTransaction) : Except Failure PoolLists :=
  if tx.isCoinBase ∨ tx.isFinal context.nBestHeight context.settings.adjustedTime 0 0 = false then .ok g
  else do
    let (scan, fFound) ← scanInputs context g.vOrphan.length tx.vin ⟨none, g.mapDependers, ofInt 0, 0⟩
    if fFound then
      let nValueOut ← tx.getValueOut
      let nFee ← subInt64 scan.nTotalIn nValueOut
      let dPriority := div scan.dPriority (ofInt tx.nTxSize)
      let dFeePerKb := div (ofInt nFee) (div (ofInt tx.nTxSize) (ofInt 1000))
      match scan.porphan with
      | none => return { g with vecPriority := g.vecPriority ++ [⟨dPriority, dFeePerKb, tx⟩] }
      | some setDependsOn =>
          return { g with
            vOrphan := g.vOrphan ++ [some ⟨tx, setDependsOn, dPriority, dFeePerKb⟩]
            mapDependers := scan.dependers }
    else
      -- the orphan is popped, but not the pointers to it
      return { g with
        vOrphan := if scan.porphan = none then g.vOrphan else g.vOrphan ++ [none]
        mapDependers := scan.dependers }

def gatherAll (context : MinerContext) : Except Failure PoolLists :=
  (context.mempool.mapTx.toList.map Prod.snd).foldlM (gather context) ⟨[], fun _ => [], []⟩

/-! ## Filling the block -/

/-- The local variables of the second loop; the transactions come after the coinbase. -/
structure Assembly where
  vOrphan : List (Option COrphan)
  vecPriority : List TxPriority
  fSortedByFee : Bool
  view : CoinsView
  vtx : List CTransaction
  vTxFees : List Int
  vTxSigOps : List Nat
  nBlockSize : Nat
  nBlockSigOps : Nat
  nFees : Int

/-- What a transaction adds to the block. -/
structure Addition where
  nTxFees : Int
  nTxSigOps : Nat
  view : CoinsView

def Assembly.adding (s : Assembly) (tx : CTransaction) (added : Addition) (nFees : Int) : Assembly :=
  { s with
    view := added.view
    vtx := s.vtx ++ [tx]
    vTxFees := s.vTxFees ++ [added.nTxFees]
    vTxSigOps := s.vTxSigOps ++ [added.nTxSigOps]
    nBlockSize := s.nBlockSize + tx.nTxSize
    nBlockSigOps := s.nBlockSigOps + added.nTxSigOps
    nFees }

/-- The limits that are tested before the inputs are looked at -/
def overLimits (miner : MinerSettings) (s : Assembly) (entry : TxPriority) : Bool :=
  miner.nBlockMaxSize ≤ s.nBlockSize + entry.ptx.nTxSize ||
    MAX_BLOCK_SIGOPS ≤ s.nBlockSigOps + entry.ptx.getLegacySigOpCount ||
    (s.fSortedByFee && lt entry.dFeePerKb (ofInt miner.nMinTxFee) &&
      miner.nBlockMinSize ≤ s.nBlockSize + entry.ptx.nTxSize)

variable [HeapLibrary]

open HeapLibrary

/-- Past the priority size, or without high-priority transactions, the queue is sorted by fee. -/
def prioritise (s : Assembly) (entry : TxPriority) : Assembly :=
  if !s.fSortedByFee && (MinerSettings.nBlockPrioritySize ≤ s.nBlockSize + entry.ptx.nTxSize ||
      lt entry.dPriority (ofInt (COIN * 144 / 250))) then
    { s with fSortedByFee := true, vecPriority := makeHeap (txPriorityCompare true) s.vecPriority }
  else s

/-- One pointer in `mapDependers[hash]` -/
def release (hash : UInt256) (s : Assembly) (id : Nat) : Except Failure Assembly := do
  let porphan ← expect (s.vOrphan[id]?.join) (.undefined "CreateNewBlock")
  if porphan.setDependsOn = ∅ then return s
  else
    let setDependsOn := porphan.setDependsOn.erase hash
    let vOrphan := s.vOrphan.set id (some { porphan with setDependsOn })
    if setDependsOn = ∅ then
      return { s with
        vOrphan
        vecPriority := pushHeap (txPriorityCompare s.fSortedByFee) (s.vecPriority ++ [porphan.entry]) }
    else return { s with vOrphan }

variable [Hashing] [ScriptMachine]

omit [DoubleMath] [HeapLibrary] in
/-- The tests and the changes of the view; the result is none for a transaction that is left out. -/
def tryTransaction (context : MinerContext) (nBlockSigOps : Nat) (view : CoinsView) (tx : CTransaction) :
    Except Failure (Option Addition) :=
  if tx.haveInputs view then do
    let nValueIn ← tx.getValueIn view
    let nValueOut ← tx.getValueOut
    let nTxFees ← subInt64 nValueIn nValueOut
    let nP2SHSigOps ← tx.getP2SHSigOpCount view
    let nTxSigOps := tx.getLegacySigOpCount + nP2SHSigOps
    if MAX_BLOCK_SIGOPS ≤ nBlockSigOps + nTxSigOps then return none
    else
      match tx.checkInputs context.mapBlockIndex view true SCRIPT_VERIFY_P2SH false with
      | .error reason => if reason.returnsFalse then return none else .error reason
      | .ok _ =>
          let (view, _) ← tx.updateCoins view context.nHeight tx.getHash
          return some ⟨nTxFees, nTxSigOps, view⟩
  else .ok none

/-- One transaction that has been taken off the queue -/
def consider (context : MinerContext) (mapDependers : UInt256 → List Nat) (s : Assembly) (entry : TxPriority) :
    Except Failure Assembly :=
  if overLimits context.miner s entry then .ok s
  else do
    let s := prioritise s entry
    match ← tryTransaction context s.nBlockSigOps s.view entry.ptx with
    | none => return s
    | some added =>
        let nFees ← addInt64 s.nFees added.nTxFees
        (mapDependers entry.ptx.getHash).foldlM (release entry.ptx.getHash) (s.adding entry.ptx added nFees)

/-- The loop that empties the queue, by turns -/
def fillBlock (context : MinerContext) (mapDependers : UInt256 → List Nat) : Nat → Assembly → Except Failure Assembly
  | 0, _ => .error .endless
  | room + 1, s =>
      match s.vecPriority with
      | [] => .ok s
      | entry :: rest => do
          let less := txPriorityCompare s.fSortedByFee
          let s ← consider context mapDependers { s with vecPriority := (popHeap less (entry :: rest)).dropLast } entry
          fillBlock context mapDependers room s

/-- The state in which the second loop starts -/
def PoolLists.assembly (g : PoolLists) (pcoinsTip : CoinsView) : Assembly where
  vOrphan := g.vOrphan
  vecPriority := makeHeap (txPriorityCompare false) g.vecPriority
  fSortedByFee := false
  view := pcoinsTip
  vtx := []
  vTxFees := []
  vTxSigOps := []
  nBlockSize := 1000
  nBlockSigOps := 100
  nFees := 0

/-- The transactions that CreateNewBlock puts behind the coinbase. In every turn a transaction leaves
the queue, which has each transaction of the pool once at most. -/
def selectTransactions (context : MinerContext) : Except Failure Assembly := do
  let g ← gatherAll context
  fillBlock context g.mapDependers (context.mempool.mapTx.size + 1) (g.assembly context.pcoinsTip)

/-! ## The block -/

omit [DoubleMath] [HeapLibrary] [Hashing] [ScriptMachine] in
/-- `CBlockIndex indexDummy(*pblock)` -/
def MinerContext.indexDummy (context : MinerContext) (header : CBlockHeader) : CBlockIndex :=
  { CBlockIndex.ofHeader header with pprev := some context.pindexPrev.hash, nHeight := context.nHeight }

/-- The template before ConnectBlock tests it -/
def newTemplate (context : MinerContext) (pubkey : CPubKey) : Except Failure CBlockTemplate := do
  let s ← selectTransactions context
  createNewBlock context.settings context.pindexPrev ⟨pubkey.vchPubKey, s.vtx, s.nFees, context.settings.adjustedTime, true⟩

/-- CreateNewBlock, with the key that the key pool reserves -/
def CTxMemPool.createNewBlock (context : MinerContext) (pubkey : CPubKey) : Except Failure CBlockTemplate := do
  let pblocktemplate ← newTemplate context pubkey
  match pblocktemplate.block.connectBlock context.settings context.mapBlockIndex
      (context.indexDummy pblocktemplate.header) context.pcoinsTip true with
  | .ok _ => return pblocktemplate
  | .error reason =>
      if reason.returnsFalse then .error (.exception "CreateNewBlock() : ConnectBlock failed") else .error reason

end

end BitCrystal
