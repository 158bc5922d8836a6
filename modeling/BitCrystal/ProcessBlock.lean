import BitCrystal.BestBlock
import BitCrystal.BigNum
import BitCrystal.BlockFiles
import BitCrystal.Retarget

namespace BitCrystal

open Data

/-! # Accepting blocks -/

namespace BlockMap

/-- An entry and its ancestors, by their `pprev`. -/
def ancestry (map : BlockMap) : Nat → Option UInt256 → List CBlockIndex
  | 0, _ => []
  | room + 1, pindex =>
      match pindex.bind map with
      | none => []
      | some index => index :: map.ancestry room index.pprev

end BlockMap

def isSuperMajority (minVersion : Int32) (chain : List CBlockIndex) (nRequired nToCheck : Nat) : Bool :=
  nRequired ≤ (chain.take nToCheck).countP fun pindex => minVersion ≤ pindex.nVersion

/-- `CScript() << n` for an `int` -/
def CScript.ofInt (n : Int) : CScript :=
  if n = -1 ∨ (1 ≤ n ∧ n ≤ 16) then [UInt8.ofNat (n + 0x50).toNat] else pushData (CBigNum.getvch n)

/-- `std::equal(expect.begin(), expect.end(), script.begin())`, which may read beyond the script. -/
def startsWith : CScript → CScript → Except Failure Bool
  | [], _ => .ok true
  | _ :: _, [] => .error (.undefined "AcceptBlock")
  | byte :: expect, other :: script => if byte = other then startsWith expect script else .ok false

/-- What the disk and the coin caches answer during one call of AcceptBlock, and the turns
that the loops of ConnectBestBlock take in it at most. -/
structure AcceptAnswers where
  settings : Settings
  disk : DiskAnswers
  /-- WriteToDisk -/
  fBlockWritten : Bool
  /-- WriteBlockIndex in AddToBlockIndex -/
  fIndexWritten : Bool
  /-- `pblocktree->Flush()` -/
  fIndexSynced : Bool
  turns : Nat
  surroundings : Nat → UInt256 → Surroundings

namespace ChainState

variable [Hashing]

/-- The rule that the coinbase starts with the height, once most blocks have version 2. -/
def heightInCoinBase (settings : Settings) (chain : List CBlockIndex) (block : CBlock) (nHeight : Int) :
    Except Failure Unit :=
  if 2 ≤ block.nVersion ∧ (if settings.fTestNet then isSuperMajority 2 chain 51 100
      else isSuperMajority 2 chain 750 1000) then do
    let txin ← expect (block.vtx.head?.bind fun tx => tx.vin.head?) (.undefined "AcceptBlock")
    let starts ← startsWith (.ofInt nHeight) txin.scriptSig
    require starts (.dos 100 "AcceptBlock() : block height mismatch in coinbase")
  else .ok ()

/-- The checks of AcceptBlock, with the height of the block.  Checkpoints::CheckBlock
refuses nothing in this program. -/
def acceptBlockChecks (settings : Settings) (s : ChainState) (block : CBlock) : Except Failure Int := do
  require (s.mapBlockIndex block.getHash).isNone (.dos 0 "AcceptBlock() : block already in mapBlockIndex")
  if block.getHash = hashGenesisBlock then return 0
  else
    let pindexPrev ← expect (s.mapBlockIndex block.hashPrevBlock) (.dos 10 "AcceptBlock() : prev block not found")
    let nHeight := pindexPrev.nHeight + 1
    let chain := s.mapBlockIndex.ancestry (heightRoom s.mapBlockIndex block.hashPrevBlock) (some block.hashPrevBlock)
    acceptHeader settings chain block.nTime block.nBits
    require (block.vtx.all fun tx => tx.isFinal s.nBestHeight settings.adjustedTime nHeight block.getBlockTime)
      (.dos 10 "AcceptBlock() : contains a non-final transaction")
    heightInCoinBase settings chain block nHeight
    return nHeight

/-- The part of AddToBlockIndex that enters the block in the tree. -/
def enter (s : ChainState) (block : CBlock) (pos : CDiskBlockPos) : ChainState :=
  let hash := block.getHash
  let inserted (pindexNew : CBlockIndex) : BlockMap := fun other =>
    if other = hash then some pindexNew else s.mapBlockIndex other
  let pindexNew := { CBlockIndex.ofHeader block.toCBlockHeader with phashBlock := some hash }
  let pprev := inserted pindexNew block.hashPrevBlock
  let nTx := UInt32.ofNat block.vtx.length
  { s with
    mapBlockIndex := inserted { pindexNew with
      pprev := pprev.map fun _ => block.hashPrevBlock
      nHeight := (pprev.map fun index => index.nHeight + 1).getD pindexNew.nHeight
      nTx
      nChainWork := (pprev.map CBlockIndex.nChainWork).getD 0 + getBlockWork block.nBits
      nChainTx := (pprev.map CBlockIndex.nChainTx).getD 0 + nTx
      nFile := pos.nFile
      nDataPos := pos.nPos
      nUndoPos := 0
      nStatus := BLOCK_VALID_TRANSACTIONS ||| BLOCK_HAVE_DATA }
    setBlockIndexValid := hash :: s.setBlockIndexValid }

variable [PubKeys] [ScriptMachine]

/-- The part of AddToBlockIndex after that. -/
def connectEntered (answers : AcceptAnswers) (s : ChainState) : Outcome :=
  if !answers.fIndexWritten then ⟨s, .error (.abort "Failed to write block index")⟩
  else (connectBestBlock answers.surroundings answers.turns s).andThen fun s =>
    if !answers.fIndexSynced then ⟨s, .error (.abort "Failed to sync block index")⟩ else ⟨s, .ok ()⟩

def addToBlockIndex (answers : AcceptAnswers) (s : ChainState) (block : CBlock) (pos : CDiskBlockPos) : Outcome :=
  if (s.mapBlockIndex block.getHash).isSome then ⟨s, .error (.dos 0 "AddToBlockIndex() : already exists")⟩
  else (s.enter block pos).connectEntered answers

end ChainState

/-! ## AcceptBlock and ProcessBlock -/

/-- The globals that ProcessBlock changes.  The multimap is listed in the order of insertion. -/
structure BlockNode where
  chain : ChainState
  files : BlockFiles
  mapOrphanBlocks : Std.ExtTreeMap UInt256 CBlock
  mapOrphanBlocksByPrev : List (UInt256 × CBlock)

namespace BlockNode

variable [Hashing]

/-- AcceptBlock up to the block on the disk, with its position there. -/
def storeBlock (answers : AcceptAnswers) (s : BlockNode) (block : CBlock) (dbp : Option CDiskBlockPos) :
    BlockNode × Except Failure CDiskBlockPos :=
  match s.chain.acceptBlockChecks answers.settings block with
  | .error reason => (s, .error reason)
  | .ok nHeight =>
      let nBlockSize := UInt32.ofNat block.getSerializeSize
      let (files, found) := s.files.findBlockPos answers.disk (dbp.getD ⟨-1, 0⟩) (nBlockSize + 8)
        (UInt32.ofNat nHeight.toNat) (UInt64.ofNat block.nTime.toNat) dbp.isSome
      let s := { s with files }
      match found, dbp with
      | .error reason, _ => (s, .error reason)
      | .ok blockPos, some _ => (s, .ok blockPos)
      | .ok blockPos, none =>
          -- the block lies behind its header
          let blockPos := { blockPos with nPos := blockPos.nPos + 8 }
          if !answers.fBlockWritten then (s, .error (.abort "Failed to write block"))
          else
            let blockFiles := fun pos => if pos = blockPos then some block else s.chain.blockFiles pos
            ({ s with chain := { s.chain with blockFiles } }, .ok blockPos)

/-- Accept orphans as long as there is a node to request their parents from. -/
def keepOrphan (s : BlockNode) (block : CBlock) : BlockNode :=
  { s with
    mapOrphanBlocks := s.mapOrphanBlocks.insertIfNew block.getHash block
    mapOrphanBlocksByPrev := s.mapOrphanBlocksByPrev ++ [(block.hashPrevBlock, block)] }

/-- The range of the multimap for a key. -/
def waitingFor (s : BlockNode) (hashPrev : UInt256) : List CBlock :=
  (s.mapOrphanBlocksByPrev.filter fun entry => entry.1 = hashPrev).map Prod.snd

/-- We don't already have its previous block. -/
def isOrphan (s : BlockNode) (block : CBlock) : Bool :=
  block.hashPrevBlock ≠ 0 && (s.chain.mapBlockIndex block.hashPrevBlock).isNone

/-- What ProcessBlock checks first. -/
def processBlockChecks (settings : Settings) (fCheckpoints : Bool) (s : BlockNode) (block : CBlock) :
    Except Failure Unit := do
  require (s.chain.mapBlockIndex block.getHash).isNone (.dos 0 "ProcessBlock() : already have block")
  require (!s.mapOrphanBlocks.contains block.getHash) (.dos 0 "ProcessBlock() : already have block (orphan)")
  block.checkBlock settings true true
  checkpointTest settings (getLastCheckpoint settings fCheckpoints s.chain.mapBlockIndex) s.chain.hashBestChain
    block.toCBlockHeader

variable [PubKeys] [ScriptMachine]

def acceptBlock (answers : AcceptAnswers) (s : BlockNode) (block : CBlock) (dbp : Option CDiskBlockPos) :
    BlockNode × Except Failure Unit :=
  match s.storeBlock answers block dbp with
  | (s, .error reason) => (s, .error reason)
  | (s, .ok pos) =>
      let outcome := (s.chain.addToBlockIndex answers block pos).caught
      ({ s with chain := outcome.state }, outcome.result)

end BlockNode

/-- The state of ProcessBlock behind an accepted block; `vWorkQueue` is the part of the
queue that is left, and `calls` counts the calls of AcceptBlock. -/
structure BlockWork where
  node : BlockNode
  vWorkQueue : List UInt256
  calls : Nat

section

variable [Hashing] [PubKeys] [ScriptMachine]

/-- One turn of the inner loop, for an orphan whose parent has been accepted. -/
def resolveBlock (answers : Nat → AcceptAnswers) (r : BlockWork) (pblockOrphan : CBlock) : Step BlockWork :=
  let (node, result) := r.node.acceptBlock (answers r.calls) pblockOrphan none
  let erased := { node with mapOrphanBlocks := node.mapOrphanBlocks.erase pblockOrphan.getHash }
  match result with
  | .ok () => ⟨⟨erased, r.vWorkQueue ++ [pblockOrphan.getHash], r.calls + 1⟩, none⟩
  | .error reason =>
      if reason.returnsFalse then ⟨⟨erased, r.vWorkQueue, r.calls + 1⟩, none⟩
      else ⟨⟨node, r.vWorkQueue, r.calls + 1⟩, some reason⟩

def resolveWaiting (answers : Nat → AcceptAnswers) : List CBlock → BlockWork → Step BlockWork
  | [], r => ⟨r, none⟩
  | pblockOrphan :: waiting, r => (resolveBlock answers r pblockOrphan).andThen (resolveWaiting answers waiting)

/-- The loop over the work queue. -/
def resolveBlocks (answers : Nat → AcceptAnswers) : Nat → BlockWork → Step BlockWork
  | 0, r => ⟨r, some .endless⟩
  | room + 1, r =>
      match r.vWorkQueue with
      | [] => ⟨r, none⟩
      | hashPrev :: vWorkQueue =>
          (resolveWaiting answers (r.node.waitingFor hashPrev) { r with vWorkQueue }).andThen fun r =>
            resolveBlocks answers room { r with node := { r.node with
              mapOrphanBlocksByPrev := r.node.mapOrphanBlocksByPrev.filter fun entry => entry.1 ≠ hashPrev } }

/-- ProcessBlock; `pfrom` tells whether a node has sent the block, `answers` are those to
the calls of AcceptBlock. -/
def BlockNode.processBlock (answers : Nat → AcceptAnswers) (fCheckpoints pfrom : Bool) (s : BlockNode)
    (block : CBlock) (dbp : Option CDiskBlockPos) : BlockNode × Except Failure Unit :=
  match s.processBlockChecks (answers 0).settings fCheckpoints block with
  | .error reason => (s, .error reason)
  | .ok () =>
      if s.isOrphan block then
        (if pfrom then s.keepOrphan block else s, .ok ())
      else
        match s.acceptBlock (answers 0) block dbp with
        | (s, .error reason) => (s, .error reason)
        | (s, .ok ()) =>
            let step := resolveBlocks answers (s.mapOrphanBlocksByPrev.length + 2) ⟨s, [block.getHash], 1⟩
            match step.failure with
            | some reason => (step.state.node, .error reason)
            | none => (step.state.node, .ok ())

end

end BitCrystal
