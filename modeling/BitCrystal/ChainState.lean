import BitCrystal.Mempool

namespace BitCrystal

open Data

/-! # The block tree and the active chain -/

/-- The globals of main.cpp and the files that the chain code reads and writes.
`setBlockIndexValid` is listed without regard to its order. -/
structure ChainState where
  mapBlockIndex : BlockMap
  setBlockIndexValid : List UInt256
  pcoinsTip : CoinsView
  pindexBest : Option UInt256
  hashBestChain : UInt256
  nBestHeight : Int
  nBestChainWork : UInt256
  nBestInvalidWork : UInt256
  mempool : CTxMemPool
  blockFiles : CDiskBlockPos → Option CBlock
  undoFiles : CDiskBlockPos → Bytes

/-- What the clock, the disk and the caches answer during one call of SetBestChain. -/
structure Surroundings where
  settings : Settings
  fIsInitialDownload : Bool
  /-- `pcoinsTip->GetCacheSize() > nCoinCacheSize` -/
  fCacheFull : Bool
  /-- CheckDiskSpace -/
  fDiskSpace : Bool
  /-- `pcoinsTip->Flush()` -/
  fCoinsWritten : Bool
  findUndoPos : UInt256 → Option UInt32
  fUndoWritten : UInt256 → Bool
  fIndexWritten : UInt256 → Bool
  fTxIndexWritten : UInt256 → Bool

/-- Whether this call of SetBestChain flushes pcoinsTip to the database. -/
def Surroundings.writesCoins (env : Surroundings) : Bool :=
  !env.fIsInitialDownload || env.fCacheFull

/-- A call together with the state it leaves, whether it succeeds or not. -/
structure Outcome where
  state : ChainState
  result : Except Failure Unit

def BlockMap.update (map : BlockMap) (hash : UInt256) (change : CBlockIndex → CBlockIndex) : BlockMap :=
  fun other => if other = hash then (map other).map change else map other

/-! ## Finding the fork -/

/-- What SetBestChain disconnects, from the tip down, and what it connects, from
the fork up. -/
structure Switch where
  vDisconnect : List UInt256
  vConnect : List UInt256

section

variable (map : BlockMap)

/-- Follow `pprev` from `plonger` down to the given height. -/
def descendTo (nHeight : Int) : Nat → UInt256 → Except Failure UInt256
  | 0, _ => .error .endless
  | room + 1, plonger => do
      let index ← expect (map plonger) (.undefined "SetBestChain")
      if nHeight < index.nHeight then
        let pprev ← expect index.pprev (.undefined "SetBestChain")
        descendTo nHeight room pprev
      else
        return plonger

/-- The number of turns in which a walk down from an entry reaches the root. -/
def heightRoom (hash : UInt256) : Nat :=
  ((map hash).map fun index => index.nHeight.toNat + 1).getD 1

/-- The fork of two branches, by turns of the outer loop of SetBestChain. -/
def findFork : Nat → UInt256 → UInt256 → Except Failure UInt256
  | 0, _, _ => .error .endless
  | room + 1, pfork, plonger =>
      if pfork = plonger then .ok pfork
      else do
        let index ← expect (map pfork) (.undefined "SetBestChain")
        let plonger ← descendTo map index.nHeight (heightRoom map plonger) plonger
        if pfork = plonger then return pfork
        else
          let pprev ← expect index.pprev (.undefined "SetBestChain")
          findFork room pprev plonger

/-- The entries from `pindex` down to, and without, `pfork`. -/
def entriesDown (pfork : Option UInt256) : Nat → Option UInt256 → Except Failure (List UInt256)
  | 0, _ => .error .endless
  | room + 1, pindex =>
      if pindex = pfork then .ok []
      else do
        let hash ← expect pindex (.undefined "SetBestChain")
        let index ← expect (map hash) (.undefined "SetBestChain")
        let rest ← entriesDown pfork room index.pprev
        return hash :: rest

/-- The fork of the tip and the new block; there is none before the first block. -/
def forkOf (tip : Option UInt256) (pindexNew : UInt256) : Except Failure (Option UInt256) :=
  match tip with
  | none => .ok none
  | some best => (findFork map (heightRoom map best) best pindexNew).map some

def planSwitch (tip : Option UInt256) (pindexNew : UInt256) : Except Failure Switch := do
  let pfork ← forkOf map tip pindexNew
  let vDisconnect ← entriesDown map pfork ((tip.map (heightRoom map)).getD 0 + 1) tip
  let vConnect ← entriesDown map pfork (heightRoom map pindexNew + 1) (some pindexNew)
  return ⟨vDisconnect, vConnect.reverse⟩

end

/-! ## Disconnecting and connecting in a scratch view -/

/-- CBlock::ReadFromDisk. -/
def readFromDisk [Hashing] (blockFiles : CDiskBlockPos → Option CBlock) (pindex : CBlockIndex) :
    Option CBlock := do
  let pos ← pindex.getBlockPos
  let block ← blockFiles pos
  if checkProofOfWork block.getHash block.nBits ∧ some block.getHash = pindex.phashBlock then
    some block
  else none

/-- The local variables of SetBestChain while it disconnects blocks. -/
structure Unwinding where
  view : CoinsView
  vResurrect : List CTransaction

/-- One turn of the loop over `vDisconnect`. -/
def disconnectTip [Hashing] [PubKeys] (s : ChainState) (u : Unwinding) (hash : UInt256) :
    Except Failure Unwinding := do
  let pindex ← expect (s.mapBlockIndex hash) (.undefined "SetBestChain")
  let block ← expect (readFromDisk s.blockFiles pindex) (.abort "Failed to read block")
  let (view, fClean) ← block.disconnectBlock pindex s.undoFiles u.view
  require fClean (.refused "SetBestBlock() : DisconnectBlock failed")
  let vResurrect := block.vtx.filter fun tx => !tx.isCoinBase && getTotalBlocksEstimate < pindex.nHeight
  return ⟨view, u.vResurrect ++ vResurrect⟩

/-- The local variables of SetBestChain while it connects blocks, and what
ConnectBlock has written to the block index and to the undo files so far. -/
structure Winding where
  view : CoinsView
  vDelete : List CTransaction
  mapBlockIndex : BlockMap
  undoFiles : CDiskBlockPos → Bytes

/-- A call of a function that may fail after it has changed its state. -/
structure Step (σ : Type) where
  state : σ
  failure : Option Failure

/-- Continue unless the call has failed. -/
def Step.andThen {σ : Type} (step : Step σ) (next : σ → Step σ) : Step σ :=
  match step.failure with
  | some _ => step
  | none => next step.state

section

variable [Hashing] [PubKeys]

/-- ConnectBlock gives a block that has none a place for its undo data. -/
def writeUndo (env : Surroundings) (hash : UInt256) (pindex : CBlockIndex) (blockundo : CBlockUndo)
    (w : Winding) : Step Winding :=
  match pindex.getUndoPos with
  | some _ => ⟨w, none⟩
  | none =>
      match env.findUndoPos hash, pindex.pprev with
      | none, _ => ⟨w, some (.refused "ConnectBlock() : FindUndoPos failed")⟩
      | some _, none => ⟨w, some (.undefined "ConnectBlock")⟩
      | some nPos, some pprev =>
          if env.fUndoWritten hash then
            let pos : CDiskBlockPos := ⟨pindex.nFile, nPos⟩
            ⟨{ w with
                undoFiles := fun other =>
                  if other = pos then blockundo.writeToDisk pprev else w.undoFiles other
                mapBlockIndex := w.mapBlockIndex.update hash fun index =>
                  { index with nUndoPos := nPos, nStatus := index.nStatus ||| BLOCK_HAVE_UNDO } }, none⟩
          else ⟨w, some (.abort "Failed to write undo data")⟩

/-- The status that ConnectBlock stores once the scripts have been checked. -/
def writeStatus (env : Surroundings) (hash : UInt256) (w : Winding) : Step Winding :=
  ⟨{ w with
      mapBlockIndex := w.mapBlockIndex.update hash fun index =>
        { index with nStatus := (index.nStatus &&& ~~~BLOCK_VALID_MASK) ||| BLOCK_VALID_SCRIPTS } },
    if env.fIndexWritten hash then none else some (.abort "Failed to write block index")⟩

/-- What ConnectBlock writes to the disk after its checks. -/
def writeConnected (env : Surroundings) (hash : UInt256) (pindex : CBlockIndex) (blockundo : CBlockUndo)
    (w : Winding) : Step Winding :=
  let recorded :=
    if pindex.getUndoPos = none ∨ pindex.nStatus &&& BLOCK_VALID_MASK < BLOCK_VALID_SCRIPTS then
      (writeUndo env hash pindex blockundo w).andThen (writeStatus env hash)
    else ⟨w, none⟩
  recorded.andThen fun w =>
    if env.settings.fTxIndex ∧ !env.fTxIndexWritten hash then
      ⟨w, some (.abort "Failed to write transaction index")⟩
    else ⟨w, none⟩

variable [ScriptMachine]

/-- One turn of the loop over `vConnect`. -/
def connectTip (env : Surroundings) (blockFiles : CDiskBlockPos → Option CBlock) (hash : UInt256)
    (w : Winding) : Step Winding :=
  match w.mapBlockIndex hash with
  | none => ⟨w, some (.undefined "SetBestChain")⟩
  | some pindex =>
      match readFromDisk blockFiles pindex with
      | none => ⟨w, some (.abort "Failed to read block")⟩
      | some block =>
          match block.connectBlock env.settings w.mapBlockIndex pindex w.view false with
          | .error reason => ⟨w, some reason⟩
          | .ok (view, blockundo) =>
              let written : Step Winding := match blockundo with
                | none => ⟨w, none⟩
                | some blockundo => writeConnected env hash pindex blockundo w
              written.andThen fun w => ⟨{ w with view, vDelete := w.vDelete ++ block.vtx }, none⟩

/-- The loop over `vConnect`, with the block whose turn has failed. -/
def connectTips (env : Surroundings) (blockFiles : CDiskBlockPos → Option CBlock) :
    List UInt256 → Winding → Winding × Option (Failure × UInt256)
  | [], w => (w, none)
  | hash :: rest, w =>
      let step := connectTip env blockFiles hash w
      match step.failure with
      | some reason => (step.state, some (reason, hash))
      | none => connectTips env blockFiles rest step.state

/-! ## Moving the tip -/

/-- The two loops that move the `pnext` links to the new branch. -/
def relink (map : BlockMap) (switch : Switch) : BlockMap :=
  let parent (hash : UInt256) : Option UInt256 := (map hash).bind CBlockIndex.pprev
  let unlinked := switch.vDisconnect.foldl (fun links hash =>
    match parent hash with
    | some pprev => links.update pprev fun index => { index with pnext := none }
    | none => links) map
  switch.vConnect.foldl (fun links hash =>
    match parent hash with
    | some pprev => links.update pprev fun index => { index with pnext := some hash }
    | none => links) unlinked

/-- A transaction of a disconnected block goes through AcceptToMemoryPool again;
validation errors are ignored. -/
def resurrect (context : AcceptContext) (pool : CTxMemPool) (tx : CTransaction) :
    Except Failure CTxMemPool :=
  match pool.acceptToMemoryPool context tx true false with
  | .ok pool => .ok pool
  | .error reason => if reason.returnsFalse then .ok pool else .error reason

/-- A transaction of a connected block leaves the pool, and so does what conflicts with it. -/
def removeConnected (pool : CTxMemPool) (tx : CTransaction) : Except Failure CTxMemPool := do
  let pool ← pool.remove tx false
  pool.removeConflicts tx

/-- The memory pool after the switch. -/
def updateMempool (context : AcceptContext) (pool : CTxMemPool) (vResurrect vDelete : List CTransaction) :
    Except Failure CTxMemPool := do
  let pool ← vResurrect.foldlM (resurrect context) pool
  vDelete.foldlM removeConnected pool

end

/-! ## Failed blocks -/

namespace ChainState

def setIndex (s : ChainState) (hash : UInt256) (change : CBlockIndex → CBlockIndex) : ChainState :=
  { s with mapBlockIndex := s.mapBlockIndex.update hash change }

def eraseValid (s : ChainState) (hash : UInt256) : ChainState :=
  { s with setBlockIndexValid := s.setBlockIndexValid.filter (· ≠ hash) }

def chainWork (s : ChainState) (hash : UInt256) : UInt256 :=
  ((s.mapBlockIndex hash).map CBlockIndex.nChainWork).getD 0

/-- InvalidChainFound, whose log message reads `pindexBest`. -/
def invalidChainFound (s : ChainState) (pindexNew : UInt256) : Outcome :=
  ⟨if s.nBestInvalidWork < s.chainWork pindexNew then
      { s with nBestInvalidWork := s.chainWork pindexNew }
    else s,
    if s.pindexBest = none then .error (.undefined "InvalidChainFound") else .ok ()⟩

def markInvalid (s : ChainState) (hash : UInt256) : ChainState :=
  (s.setIndex hash fun index => { index with nStatus := index.nStatus ||| BLOCK_FAILED_VALID }).eraseValid hash

end ChainState

namespace Outcome

def andThen (outcome : Outcome) (next : ChainState → Outcome) : Outcome :=
  match outcome.result with
  | .error _ => outcome
  | .ok _ => next outcome.state

end Outcome

namespace ChainState

/-- InvalidBlockFound; `reorganise` is the call of ConnectBestBlock in it. -/
def invalidBlockFound (reorganise : ChainState → Outcome) (s : ChainState) (hash : UInt256) : Outcome :=
  ((s.markInvalid hash).invalidChainFound hash).andThen fun s =>
    if ((s.mapBlockIndex hash).bind CBlockIndex.pnext).isSome then
      let outcome := reorganise s
      -- the verdict of ConnectBestBlock is not looked at
      match outcome.result with
      | .error reason => if reason.returnsFalse then ⟨outcome.state, .ok ()⟩ else outcome
      | .ok _ => outcome
    else ⟨s, .ok ()⟩

/-! ## SetBestChain -/

section

variable [Hashing] [PubKeys] [ScriptMachine]

/-- The part of SetBestChain after the scratch view has been flushed and the
database has been written. -/
def moveTip (env : Surroundings) (s : ChainState) (pindexNew : UInt256) (switch : Switch)
    (vResurrect vDelete : List CTransaction) : Outcome :=
  let linked := { s with mapBlockIndex := relink s.mapBlockIndex switch }
  let context : AcceptContext :=
    ⟨env.settings, linked.mapBlockIndex, linked.nBestHeight, linked.pcoinsTip, false⟩
  match linked.mapBlockIndex pindexNew, updateMempool context linked.mempool vResurrect vDelete with
  | none, _ => ⟨linked, .error (.undefined "SetBestChain")⟩
  | some _, .error reason => ⟨linked, .error reason⟩
  | some pindex, .ok mempool =>
      ⟨{ linked with
          mempool
          hashBestChain := pindexNew
          pindexBest := some pindexNew
          nBestHeight := pindex.nHeight
          nBestChainWork := pindex.nChainWork }, .ok ()⟩

/-- The part of SetBestChain after the blocks have been connected. -/
def commit (env : Surroundings) (s : ChainState) (pindexNew : UInt256) (switch : Switch)
    (view : CoinsView) (vResurrect vDelete : List CTransaction) : Outcome :=
  -- view.Flush()
  let s := { s with pcoinsTip := view }
  if env.writesCoins then
    if !env.fDiskSpace then ⟨s, .error (.abort "Error: Disk space is low!")⟩
    else if !env.fCoinsWritten then ⟨s, .error (.abort "Failed to write to coin database")⟩
    else moveTip env { s with pcoinsTip := view.reload } pindexNew switch vResurrect vDelete
  else moveTip env s pindexNew switch vResurrect vDelete

/-- What SetBestChain does about a block that could not be connected. -/
def connectFailed (reorganise : ChainState → Outcome) (s : ChainState) (pindexNew hash : UInt256)
    (reason : Failure) : Outcome :=
  if reason.isInvalid then
    ((s.invalidChainFound pindexNew).andThen fun s => invalidBlockFound reorganise s hash).andThen
      fun s => ⟨s, .error reason⟩
  else ⟨s, .error reason⟩

/-- The part of SetBestChain up to the last disconnected block. -/
def unwind (s : ChainState) (pindexNew : UInt256) : Except Failure (Switch × Unwinding) := do
  let switch ← planSwitch s.mapBlockIndex s.pcoinsTip.best pindexNew
  let unwinding ← switch.vDisconnect.foldlM (disconnectTip s) ⟨s.pcoinsTip, []⟩
  return (switch, unwinding)

/-- The part of SetBestChain that connects blocks. -/
def wind (env : Surroundings) (s : ChainState) (switch : Switch) (u : Unwinding) :
    Winding × Option (Failure × UInt256) :=
  connectTips env s.blockFiles switch.vConnect ⟨u.view, [], s.mapBlockIndex, s.undoFiles⟩

/-- What ConnectBlock has written stays, whatever SetBestChain returns. -/
def written (s : ChainState) (w : Winding) : ChainState :=
  { s with mapBlockIndex := w.mapBlockIndex, undoFiles := w.undoFiles }

/-- SetBestChain; `reorganise` is ConnectBestBlock as InvalidBlockFound calls it. -/
def setBestChain (reorganise : ChainState → Outcome) (env : Surroundings) (s : ChainState)
    (pindexNew : UInt256) : Outcome :=
  match s.unwind pindexNew with
  | .error reason => ⟨s, .error reason⟩
  | .ok (switch, u) =>
      match s.wind env switch u with
      | (w, some (reason, hash)) => (s.written w).connectFailed reorganise pindexNew hash reason
      | (w, none) => (s.written w).commit env pindexNew switch w.view u.vResurrect w.vDelete

end

end ChainState

end BitCrystal
