import BitCrystal.BaseText
import BitCrystal.ConnectBlock
import BitCrystal.Data.Tables
import BitCrystal.MerkleRoot
import BitCrystal.Retarget
import BitCrystal.ScriptBuilder
import BitCrystal.WorkData

namespace BitCrystal

open Data

/-! # Handing out work

getwork and getwork2 change one template in place and keep the script of each coinbase
under the Merkle root of the work, by which a submission finds it again. -/

/-! ## Templates -/

def CBlockHeader.CURRENT_VERSION : Int32 := 112

def COINBASE_FLAGS : CScript := CScript.pushData (ascii "/P2SH/")

/-- The block of a CBlockTemplate, whose coinbase has one input and one output. -/
structure CBlockTemplate where
  header : CBlockHeader
  scriptSig : CScript
  nValue : Int64
  scriptPubKey : CScript
  others : List CTransaction
deriving DecidableEq

namespace CBlockTemplate

def coinbase (pblock : CBlockTemplate) : CTransaction where
  nVersion := CTransaction.CURRENT_VERSION
  vin := [⟨COutPoint.null, pblock.scriptSig, 0xffffffff⟩]
  vout := [⟨pblock.nValue, pblock.scriptPubKey⟩]
  nLockTime := 0
  strTxComment := []

def block (pblock : CBlockTemplate) : CBlock := { pblock.header with vtx := pblock.coinbase :: pblock.others }

/-- `hashMerkleRoot = BuildMerkleTree()` -/
def rebuilt [Hashing] (pblock : CBlockTemplate) : CBlockTemplate :=
  { pblock with header := { pblock.header with hashMerkleRoot := pblock.block.buildMerkleTree } }

/-- The block with the time and the nonce of a submission, and the script that was saved -/
def submitted [Hashing] (pblock : CBlockTemplate) (pdata : CBlockHeader) (scriptSig : CScript) : CBlockTemplate :=
  let header := { pblock.header with nTime := pdata.nTime, nNonce := pdata.nNonce }
  { pblock with header, scriptSig }.rebuilt

end CBlockTemplate

/-- `pindexBest` with the blocks behind it -/
structure WorkTip where
  hash : UInt256
  pindex : CBlockIndex
  ancestors : List CBlockIndex

namespace WorkTip

def chain (tip : WorkTip) : List CBlockIndex := tip.pindex :: tip.ancestors

/-- The time that UpdateTime sets. -/
def newTime (tip : WorkTip) (adjustedTime : Int) : UInt32 :=
  UInt32.ofInt (max (getMedianTimePast tip.chain + 1) adjustedTime)

end WorkTip

def updateTime (settings : Settings) (pindexPrev : WorkTip) (adjustedTime : Int) (header : CBlockHeader) :
    Except Failure CBlockHeader :=
  let nTime := pindexPrev.newTime adjustedTime
  -- Updating time can change work required on testnet
  if settings.fTestNet then do
    let nBits ← getNextWorkRequired settings pindexPrev.chain nTime
    return { header with nTime, nBits }
  else return { header with nTime }

/-- What CreateNewBlock takes from the key pool, the memory pool and the clock, and whether the block connects. -/
structure TemplateParts where
  pubkey : Bytes
  others : List CTransaction
  nFees : Int
  adjustedTime : Int
  fConnects : Bool

def createNewBlock (settings : Settings) (pindexPrev : WorkTip) (parts : TemplateParts) : Except Failure CBlockTemplate := do
  let header ← updateTime settings pindexPrev parts.adjustedTime ⟨CBlockHeader.CURRENT_VERSION, pindexPrev.hash, 0, 0, 0, 0⟩
  let nBits ← getNextWorkRequired settings pindexPrev.chain header.nTime
  let nValue ← getBlockValue (pindexPrev.pindex.nHeight + 1) parts.nFees
  require parts.fConnects (.exception "CreateNewBlock() : ConnectBlock failed")
  return {
    header := { header with nBits, nNonce := 0 }
    scriptSig := [CScript.OP_0, CScript.OP_0]
    nValue := Int64.ofInt nValue
    scriptPubKey := CScript.pushData parts.pubkey ++ [CScript.OP_CHECKSIG]
    others := parts.others }

/-! ## IncrementExtraNonce -/

/-- `(CScript() << nHeight << CBigNum(nExtraNonce)) + COINBASE_FLAGS` -/
def coinbaseScript (nHeight nExtraNonce : UInt32) : CScript :=
  CScript.pushUInt64 nHeight.toUInt64 ++ CScript.pushData (CBigNum.getvch nExtraNonce.toNat) ++ COINBASE_FLAGS

def nextHeight (pindexPrev : WorkTip) : UInt32 := UInt32.ofInt (pindexPrev.pindex.nHeight + 1)

/-- `nExtraNonce` after the call, where `hashPrevBlock` is the static variable. -/
def nextExtraNonce (hashPrevBlock : UInt256) (nExtraNonce : UInt32) (pblock : CBlockTemplate) : UInt32 :=
  if hashPrevBlock ≠ pblock.header.hashPrevBlock then 1 else nExtraNonce + 1

def incrementExtraNonce [Hashing] (pindexPrev : WorkTip) (nExtraNonce : UInt32) (pblock : CBlockTemplate) :
    Except Failure CBlockTemplate := do
  let scriptSig := coinbaseScript (nextHeight pindexPrev) nExtraNonce
  require (scriptSig.length ≤ 100) (.undefined "IncrementExtraNonce")
  return { pblock with scriptSig }.rebuilt

/-! ## The calls -/

/-- What a call finds. There are no parts when the key pool has no key. -/
structure WorkContext where
  fConnected : Bool
  fInitialDownload : Bool
  nTransactionsUpdated : UInt32
  time : Int
  nStart : Int
  adjustedTime : Int
  parts : Option TemplateParts

def WorkContext.newTemplate (settings : Settings) (pindexBest : WorkTip) (context : WorkContext) :
    Except Failure CBlockTemplate :=
  match context.parts with
  | none => .error (.exception "Out of memory")
  | some parts => createNewBlock settings pindexBest parts

def WorkContext.serves (context : WorkContext) : Except Failure Unit := do
  require context.fConnected (.exception "BitCrystal is not connected!")
  require (!context.fInitialDownload) (.exception "BitCrystal is downloading blocks...")

/-- The static variables of one of the calls, and that of IncrementExtraNonce. A pointer to a block is its place among
the templates. -/
structure WorkNode where
  mapNewBlock : Std.ExtTreeMap UInt256 (Nat × CScript)
  vNewBlockTemplate : List CBlockTemplate
  nTransactionsUpdatedLast : UInt32
  pindexPrev : Option UInt256
  nStart : Int
  pblocktemplate : Nat
  nExtraNonce : UInt32
  hashPrevBlock : UInt256

namespace WorkNode

abbrev Renews (pindexBest : WorkTip) (context : WorkContext) (node : WorkNode) : Prop :=
  node.pindexPrev ≠ some pindexBest.hash ∨
    (context.nTransactionsUpdated ≠ node.nTransactionsUpdatedLast ∧ 60 < context.time - node.nStart)

def cleared (pindexBest : WorkTip) (node : WorkNode) : WorkNode :=
  if node.pindexPrev = some pindexBest.hash then node else { node with mapNewBlock := ∅, vNewBlockTemplate := [] }

def renew (settings : Settings) (pindexBest : WorkTip) (context : WorkContext) (node : WorkNode) :
    WorkNode × Except Failure Unit :=
  let node := {
    node.cleared pindexBest with
    pindexPrev := none
    nTransactionsUpdatedLast := context.nTransactionsUpdated
    nStart := context.nStart }
  match context.newTemplate settings pindexBest with
  | .error failure => (node, .error failure)
  | .ok pblocktemplate =>
      ({ node with
          vNewBlockTemplate := node.vNewBlockTemplate ++ [pblocktemplate]
          pblocktemplate := node.vNewBlockTemplate.length
          pindexPrev := some pindexBest.hash }, .ok ())

variable [Hashing]

def updated (settings : Settings) (pindexPrev : WorkTip) (context : WorkContext) (node : WorkNode) :
    Except Failure (CBlockTemplate × UInt32) := do
  let pblock ← expect node.vNewBlockTemplate[node.pblocktemplate]? (.undefined "getwork")
  let header ← updateTime settings pindexPrev context.adjustedTime pblock.header
  let pblock := { pblock with header := { header with nNonce := 0 } }
  let nExtraNonce := nextExtraNonce node.hashPrevBlock node.nExtraNonce pblock
  let pblock ← incrementExtraNonce pindexPrev nExtraNonce pblock
  return (pblock, nExtraNonce)

def nextWork (settings : Settings) (pindexPrev : WorkTip) (context : WorkContext) (node : WorkNode) :
    WorkNode × Except Failure CBlockTemplate :=
  match node.updated settings pindexPrev context with
  | .error failure => (node, .error failure)
  | .ok (pblock, nExtraNonce) =>
      ({ node with
          mapNewBlock := node.mapNewBlock.insert pblock.header.hashMerkleRoot (node.pblocktemplate, pblock.scriptSig)
          vNewBlockTemplate := node.vNewBlockTemplate.set node.pblocktemplate pblock
          nExtraNonce
          hashPrevBlock := pblock.header.hashPrevBlock }, .ok pblock)

/-- A call without data -/
def askWork (settings : Settings) (pindexBest : WorkTip) (context : WorkContext) (node : WorkNode) :
    WorkNode × Except Failure CBlockTemplate :=
  match context.serves with
  | .error failure => (node, .error failure)
  | .ok () =>
      if node.Renews pindexBest context then
        match node.renew settings pindexBest context with
        | (node, .error failure) => (node, .error failure)
        | (node, .ok ()) => node.nextWork settings pindexBest context
      else node.nextWork settings pindexBest context

/-- A call with data, and the block for CheckWork; the call returns false where there is none. -/
def submitWork (call : WorkCall) (context : WorkContext) (vchData : Bytes) (node : WorkNode) :
    WorkNode × Except Failure (Option CBlock) :=
  match context.serves with
  | .error failure => (node, .error failure)
  | .ok () =>
      if vchData.length ≠ 128 then (node, .error (.exception "Invalid parameter"))
      else
        let pdata := call.read vchData
        match node.mapNewBlock[pdata.hashMerkleRoot]? with
        | none => (node, .ok none)
        | some (place, scriptSig) =>
            match node.vNewBlockTemplate[place]? with
            | none => (node, .error (.undefined "getwork"))
            | some pblock =>
                let pblock := pblock.submitted pdata scriptSig
                ({ node with vNewBlockTemplate := node.vNewBlockTemplate.set place pblock }, .ok (some pblock.block))

end WorkNode

/-! ## Runs -/

structure HandedOut where
  pblock : CBlockTemplate
  data : Bytes
  nExtraNonce : UInt32

/-- The node with its tip and the work since the tip has changed, the last one first. -/
structure WorkRun where
  node : WorkNode
  tip : WorkTip
  issued : List HandedOut

/-- Calls without and with data, a new tip, and another caller of IncrementExtraNonce -/
inductive WorkEvent where
  | ask (context : WorkContext) (unset : { bytes : Bytes // bytes.length = 48 })
  | submit (context : WorkContext) (vchData : Bytes)
  | tip (tip : WorkTip)
  | other (hashPrevBlock : UInt256)

namespace WorkRun

variable [Hashing]

def start (tip : WorkTip) : WorkRun := ⟨⟨∅, [], 0, none, 0, 0, 0, 0⟩, tip, []⟩

def step (settings : Settings) (call : WorkCall) (s : WorkRun) : WorkEvent → WorkRun
  | .ask context unset =>
      match s.node.askWork settings s.tip context with
      | (node, .error _) => { s with node }
      | (node, .ok pblock) =>
          { s with node, issued := ⟨pblock, call.pdata pblock.header unset, node.nExtraNonce⟩ :: s.issued }
  | .submit context vchData => { s with node := (s.node.submitWork call context vchData).1 }
  | .tip tip => if tip.hash = s.tip.hash then s else { s with tip, issued := [] }
  | .other hashPrevBlock => { s with node := { s.node with hashPrevBlock } }

/-- What is promised of the work since the tip has changed. -/
structure Submittable (call : WorkCall) (s : WorkRun) : Prop where
  distinct : s.issued.Pairwise fun work other => work.pblock.header.hashMerkleRoot ≠ other.pblock.header.hashMerkleRoot
  submits : ∀ work ∈ s.issued, ∀ (context : WorkContext) (vchData : Bytes), context.serves = .ok () →
    SameButTimeAndNonce work.data vchData → ∃ block, (s.node.submitWork call context vchData).2 = .ok (some block) ∧
      block.toCBlockHeader = call.read vchData ∧ block.vtx = work.pblock.block.vtx
  unknown : ∀ (context : WorkContext) (vchData : Bytes), context.serves = .ok () → vchData.length = 128 →
    s.node.mapNewBlock[(call.read vchData).hashMerkleRoot]? = none →
      s.node.submitWork call context vchData = (s.node, .ok none)

/-- As long as there is work since the tip has changed: no template has failed to be made, there are fewer than 2^32
works, the bits that the test network requires at the new time are those of a template that is kept, and the other
callers of IncrementExtraNonce build on the same block. -/
def Meets (settings : Settings) (s : WorkRun) : WorkEvent → Prop
  | .ask context _ => s.issued = [] ∨ (s.node.pindexPrev = some s.tip.hash ∧ s.issued.length < 2 ^ 32 ∧
      (settings.fTestNet = true → ¬ s.node.Renews s.tip context →
        ∀ pblock ∈ s.node.vNewBlockTemplate[s.node.pblocktemplate]?, ∀ nBits : UInt32,
          getNextWorkRequired settings s.tip.chain (s.tip.newTime context.adjustedTime) = .ok nBits →
            nBits = pblock.header.nBits))
  | .other hashPrevBlock => s.issued = [] ∨ hashPrevBlock = s.tip.hash
  | _ => True

/-- The states of the runs whose steps all meet the condition -/
inductive Reached (settings : Settings) (call : WorkCall) (tip : WorkTip) : WorkRun → Prop where
  | start : Reached settings call tip (start tip)
  | step {s : WorkRun} (event : WorkEvent) (reached : Reached settings call tip s) (meets : s.Meets settings event) :
      Reached settings call tip (s.step settings call event)

/-- Different bytes have different hashes, among the trees and the coinbases of the works. -/
structure Collisionless (works : List HandedOut) : Prop where
  trees : ∀ work ∈ works, ∀ other ∈ works,
    MerkleSound (work.pblock.block.vtx.map CTransaction.getHash) (other.pblock.block.vtx.map CTransaction.getHash)
  coinbases : ∀ work ∈ works, ∀ other ∈ works, work.pblock.coinbase.getHash = other.pblock.coinbase.getHash →
    work.pblock.coinbase.serialize = other.pblock.coinbase.serialize

end WorkRun

/-! ## The script of the coinbase -/

theorem CScript.pushData_of_short {data : Bytes} (short : data.length < 76) :
    pushData data = UInt8.ofNat data.length :: data :=
  if_pos short

theorem extraNonce_short (nExtraNonce : UInt32) : (CBigNum.getvch nExtraNonce.toNat).length ≤ 5 := by
  apply CBigNum.getvch_length_le
  simpa using nExtraNonce.toNat_lt

theorem coinbaseScript_injective {nHeight nExtraNonce other : UInt32}
    (same : coinbaseScript nHeight nExtraNonce = coinbaseScript nHeight other) : nExtraNonce = other := by
  have short := extraNonce_short nExtraNonce
  have short' := extraNonce_short other
  have pushes := List.append_cancel_left (List.append_cancel_right same)
  rw [CScript.pushData_of_short (by omega), CScript.pushData_of_short (by omega)] at pushes
  have numbers := congrArg CBigNum.setvch (List.cons.inj pushes).2
  rw [CBigNum.setvch_getvch, CBigNum.setvch_getvch] at numbers
  exact UInt32.toNat_inj.mp (Int.ofNat_inj.mp numbers)

/-! ## What a call does with a template -/

/-- The same work, but for time, nonce, script and root -/
structure CBlockTemplate.Keeps (pblock before : CBlockTemplate) : Prop where
  nVersion : pblock.header.nVersion = before.header.nVersion
  hashPrevBlock : pblock.header.hashPrevBlock = before.header.hashPrevBlock
  nBits : pblock.header.nBits = before.header.nBits
  nValue : pblock.nValue = before.nValue
  scriptPubKey : pblock.scriptPubKey = before.scriptPubKey
  others : pblock.others = before.others

theorem CBlockTemplate.Keeps.refl (pblock : CBlockTemplate) : pblock.Keeps pblock := ⟨rfl, rfl, rfl, rfl, rfl, rfl⟩

theorem CBlockTemplate.Keeps.trans {last pblock before : CBlockTemplate} (keeps : last.Keeps pblock)
    (keeps' : pblock.Keeps before) : last.Keeps before :=
  ⟨keeps.nVersion.trans keeps'.nVersion, keeps.hashPrevBlock.trans keeps'.hashPrevBlock, keeps.nBits.trans keeps'.nBits,
    keeps.nValue.trans keeps'.nValue, keeps.scriptPubKey.trans keeps'.scriptPubKey, keeps.others.trans keeps'.others⟩

theorem exists_keeps_of_set {templates : List CBlockTemplate} {place : Nat} {before after : CBlockTemplate}
    (found : templates[place]? = some before) (keeps : after.Keeps before) {other : Nat} {pblock : CBlockTemplate}
    (there : templates[other]? = some pblock) :
    ∃ next, (templates.set place after)[other]? = some next ∧ next.Keeps pblock := by
  by_cases same : place = other
  · subst same
    cases found.symm.trans there
    exact ⟨after, by rw [List.getElem?_set_self' , found]; rfl, keeps⟩
  · exact ⟨pblock, by rw [List.getElem?_set_ne same, there], .refl pblock⟩

theorem updateTime_eq_ok {settings : Settings} {pindexPrev : WorkTip} {adjustedTime : Int} {header next : CBlockHeader}
    (run : updateTime settings pindexPrev adjustedTime header = .ok next) :
    ∃ nBits, next = { header with nTime := pindexPrev.newTime adjustedTime, nBits } ∧
      (nBits = header.nBits ∨ (settings.fTestNet = true ∧
        getNextWorkRequired settings pindexPrev.chain (pindexPrev.newTime adjustedTime) = .ok nBits)) := by
  unfold updateTime at run
  dsimp only at run
  split at run
  case isTrue test =>
    obtain ⟨nBits, required, same⟩ := bind_eq_ok.mp run
    cases same
    exact ⟨nBits, rfl, .inr ⟨test, required⟩⟩
  case isFalse =>
    cases run
    exact ⟨header.nBits, rfl, .inl rfl⟩

theorem createNewBlock_hashPrevBlock {settings : Settings} {pindexPrev : WorkTip} {parts : TemplateParts}
    {pblock : CBlockTemplate} (run : createNewBlock settings pindexPrev parts = .ok pblock) :
    pblock.header.hashPrevBlock = pindexPrev.hash := by
  simp only [createNewBlock, bind_eq_ok, pure_eq_ok] at run
  obtain ⟨header, timed, nBits, _, nValue, _, _, _, rfl⟩ := run
  obtain ⟨_, rfl, _⟩ := updateTime_eq_ok timed
  rfl

theorem newTemplate_hashPrevBlock {settings : Settings} {pindexBest : WorkTip} {context : WorkContext}
    {pblock : CBlockTemplate} (run : context.newTemplate settings pindexBest = .ok pblock) :
    pblock.header.hashPrevBlock = pindexBest.hash := by
  unfold WorkContext.newTemplate at run
  split at run
  · cases run
  · exact createNewBlock_hashPrevBlock run

namespace WorkNode

variable {settings : Settings} {tip : WorkTip} {context : WorkContext} {node next : WorkNode}

/-- Nothing that a submission needs has changed, and the counter is the same. -/
structure Extends (node next : WorkNode) : Prop where
  mapNewBlock : next.mapNewBlock = node.mapNewBlock
  templates : ∀ (place : Nat) (pblock : CBlockTemplate), node.vNewBlockTemplate[place]? = some pblock →
    next.vNewBlockTemplate[place]? = some pblock
  nExtraNonce : next.nExtraNonce = node.nExtraNonce
  hashPrevBlock : next.hashPrevBlock = node.hashPrevBlock

theorem Extends.refl (node : WorkNode) : node.Extends node := ⟨rfl, fun _ _ => id, rfl, rfl⟩

/-- The template of the calls is one for the block that they remember. -/
def Current (node : WorkNode) : Prop :=
  ∀ hash, node.pindexPrev = some hash → ∃ pblock, node.vNewBlockTemplate[node.pblocktemplate]? = some pblock ∧
    pblock.header.hashPrevBlock = hash

theorem renew_current {answer : Except Failure Unit} (run : node.renew settings tip context = (next, answer)) :
    next.Current := by
  unfold renew at run
  dsimp only at run
  split at run
  · cases run
    intro hash none
    cases none
  · rename_i pblock made
    cases run
    intro hash some
    cases some
    exact ⟨pblock, List.getElem?_concat_length, newTemplate_hashPrevBlock made⟩

theorem renew_pindexPrev (run : node.renew settings tip context = (next, .ok ())) :
    next.pindexPrev = some tip.hash := by
  unfold renew at run
  dsimp only at run
  split at run
  · cases run
  · cases run
    rfl

theorem renew_fresh (kept : node.pindexPrev = some tip.hash) (run : node.renew settings tip context = (next, .ok ())) :
    next.pblocktemplate = node.vNewBlockTemplate.length := by
  unfold renew cleared at run
  rw [if_pos kept] at run
  dsimp only at run
  split at run
  · cases run
  · cases run
    rfl

theorem renew_hashPrevBlock {answer : Except Failure Unit} (run : node.renew settings tip context = (next, answer)) :
    next.nExtraNonce = node.nExtraNonce ∧ next.hashPrevBlock = node.hashPrevBlock := by
  have same : (node.cleared tip).nExtraNonce = node.nExtraNonce ∧
      (node.cleared tip).hashPrevBlock = node.hashPrevBlock := by
    unfold cleared
    split
    · exact ⟨rfl, rfl⟩
    · exact ⟨rfl, rfl⟩
  unfold renew at run
  dsimp only at run
  split at run
  · cases run
    exact same
  · cases run
    exact same

theorem renew_extends {answer : Except Failure Unit} (kept : node.pindexPrev = some tip.hash)
    (run : node.renew settings tip context = (next, answer)) : node.Extends next := by
  unfold renew cleared at run
  rw [if_pos kept] at run
  dsimp only at run
  split at run
  · cases run
    exact ⟨rfl, fun _ _ => id, rfl, rfl⟩
  · cases run
    refine ⟨rfl, fun place pblock found => ?_, rfl, rfl⟩
    obtain ⟨inside, _⟩ := List.getElem?_eq_some_iff.mp found
    rw [List.getElem?_append_left inside]
    exact found

/-- The node after the first part of a call, which may have made a template -/
structure Prepared (settings : Settings) (tip : WorkTip) (context : WorkContext) (node middle : WorkNode) : Prop where
  current : node.Current → middle.Current
  extends_ : node.pindexPrev = some tip.hash → node.Extends middle
  counter : middle.nExtraNonce = node.nExtraNonce ∧ middle.hashPrevBlock = node.hashPrevBlock

theorem Prepared.refl (settings : Settings) (tip : WorkTip) (context : WorkContext) (node : WorkNode) :
    Prepared settings tip context node node :=
  ⟨id, fun _ => .refl node, rfl, rfl⟩

theorem renew_prepared {middle : WorkNode} {answer : Except Failure Unit}
    (run : node.renew settings tip context = (middle, answer)) : Prepared settings tip context node middle where
  current _ := renew_current run
  extends_ kept := renew_extends kept run
  counter := renew_hashPrevBlock run

section

variable [Hashing]

/-- What is handed out, told from the template before the call -/
structure Updated (settings : Settings) (tip : WorkTip) (context : WorkContext) (node : WorkNode)
    (before pblock : CBlockTemplate) (nExtraNonce : UInt32) : Prop where
  found : node.vNewBlockTemplate[node.pblocktemplate]? = some before
  counter : nExtraNonce = nextExtraNonce node.hashPrevBlock node.nExtraNonce before
  scriptSig : pblock.scriptSig = coinbaseScript (nextHeight tip) nExtraNonce
  short : pblock.scriptSig.length ≤ 100
  hashPrevBlock : pblock.header.hashPrevBlock = before.header.hashPrevBlock
  root : pblock.header.hashMerkleRoot = pblock.block.buildMerkleTree
  keeps : pblock.header.nBits = before.header.nBits → pblock.Keeps before
  nBits : pblock.header.nBits = before.header.nBits ∨ (settings.fTestNet = true ∧
    getNextWorkRequired settings tip.chain (tip.newTime context.adjustedTime) = .ok pblock.header.nBits)

theorem updated_eq_ok {pblock : CBlockTemplate} {nExtraNonce : UInt32}
    (run : node.updated settings tip context = .ok (pblock, nExtraNonce)) :
    ∃ before, Updated settings tip context node before pblock nExtraNonce := by
  simp only [updated, incrementExtraNonce, bind_eq_ok, expect_eq_ok, require_eq_ok, pure_eq_ok, Prod.mk.injEq] at run
  obtain ⟨before, found, header, timed, _, ⟨_, short, rfl⟩, rfl, rfl⟩ := run
  obtain ⟨nBits, rfl, required⟩ := updateTime_eq_ok timed
  refine ⟨before, found, rfl, rfl, short, rfl, rfl, fun same => ⟨rfl, rfl, same, rfl, rfl, rfl⟩, ?_⟩
  exact required

theorem nextWork_eq_ok {pblock : CBlockTemplate} (run : node.nextWork settings tip context = (next, .ok pblock)) :
    ∃ before, Updated settings tip context node before pblock next.nExtraNonce ∧ next = { node with
      mapNewBlock := node.mapNewBlock.insert pblock.header.hashMerkleRoot (node.pblocktemplate, pblock.scriptSig)
      vNewBlockTemplate := node.vNewBlockTemplate.set node.pblocktemplate pblock
      nExtraNonce := next.nExtraNonce
      hashPrevBlock := pblock.header.hashPrevBlock } := by
  unfold nextWork at run
  split at run
  · cases run
  · rename_i other nExtraNonce given
    cases run
    obtain ⟨before, whole⟩ := updated_eq_ok given
    exact ⟨before, whole, rfl⟩

theorem nextWork_eq_error {failure : Failure} (run : node.nextWork settings tip context = (next, .error failure)) :
    next = node := by
  unfold nextWork at run
  split at run
  · cases run
    rfl
  · cases run

theorem askWork_eq_ok {pblock : CBlockTemplate} (run : node.askWork settings tip context = (next, .ok pblock)) :
    ∃ middle, Prepared settings tip context node middle ∧ middle.pindexPrev = some tip.hash ∧
      ((¬ node.Renews tip context ∧ middle = node) ∨
        (node.pindexPrev = some tip.hash → middle.pblocktemplate = node.vNewBlockTemplate.length)) ∧
      middle.nextWork settings tip context = (next, .ok pblock) := by
  unfold askWork at run
  split at run
  · cases run
  · split at run
    case isTrue =>
      split at run
      · cases run
      · rename_i middle renewed
        exact ⟨middle, renew_prepared renewed, renew_pindexPrev renewed,
          .inr fun kept => renew_fresh kept renewed, run⟩
    case isFalse still =>
      have kept : node.pindexPrev = some tip.hash := by
        by_contra other
        exact still (.inl other)
      exact ⟨node, .refl settings tip context node, kept, .inl ⟨still, rfl⟩, run⟩

theorem askWork_eq_error {failure : Failure} (run : node.askWork settings tip context = (next, .error failure)) :
    Prepared settings tip context node next := by
  unfold askWork at run
  split at run
  · cases run
    exact .refl settings tip context _
  · split at run
    case isTrue =>
      split at run
      · rename_i middle other renewed
        cases run
        exact renew_prepared renewed
      · rename_i middle renewed
        rw [nextWork_eq_error run]
        exact renew_prepared renewed
    case isFalse =>
      rw [nextWork_eq_error run]
      exact .refl settings tip context node

/-- A submission changes a template, but not the work. -/
theorem submitWork_cases (call : WorkCall) (context : WorkContext) (vchData : Bytes) (node : WorkNode) :
    (node.submitWork call context vchData).1 = node ∨ ∃ (place : Nat) (before after : CBlockTemplate),
      node.vNewBlockTemplate[place]? = some before ∧ after.Keeps before ∧
        (node.submitWork call context vchData).1 =
          { node with vNewBlockTemplate := node.vNewBlockTemplate.set place after } := by
  unfold submitWork
  split
  · exact .inl rfl
  · split
    · exact .inl rfl
    · dsimp only
      split
      · exact .inl rfl
      · rename_i place scriptSig _
        split
        · exact .inl rfl
        · rename_i pblock found
          exact .inr ⟨place, pblock, pblock.submitted (call.read vchData) scriptSig, found, ⟨rfl, rfl, rfl, rfl, rfl, rfl⟩, rfl⟩

end

end WorkNode

/-! ## What holds of the works -/

namespace HandedOut

variable [Hashing]

structure Made (call : WorkCall) (tip : WorkTip) (work : HandedOut) : Prop where
  scriptSig : work.pblock.scriptSig = coinbaseScript (nextHeight tip) work.nExtraNonce
  short : work.pblock.scriptSig.length ≤ 100
  root : work.pblock.header.hashMerkleRoot = work.pblock.block.buildMerkleTree
  data : ∃ unset : Bytes, unset.length = 48 ∧ work.data = call.pdata work.pblock.header unset

def Held (node : WorkNode) (work : HandedOut) : Prop :=
  ∃ place pblock, node.mapNewBlock[work.pblock.header.hashMerkleRoot]? = some (place, work.pblock.scriptSig) ∧
    node.vNewBlockTemplate[place]? = some pblock ∧ pblock.Keeps work.pblock

omit [Hashing] in
theorem scriptSig_eq_of_serialize {pblock other : CBlockTemplate} (short : pblock.scriptSig.length ≤ 100)
    (short' : other.scriptSig.length ≤ 100) (same : pblock.coinbase.serialize = other.coinbase.serialize) :
    pblock.scriptSig = other.scriptSig := by
  have limit : 100 ≤ MAX_SIZE := by decide
  simp only [CBlockTemplate.coinbase, CTransaction.serialize, List.append_assoc, List.flatMap_cons, List.flatMap_nil,
    List.nil_append] at same
  have inputs := List.append_cancel_left (List.append_cancel_left same)
  have read := CTxIn.reads ⟨COutPoint.null, pblock.scriptSig, 0xffffffff⟩ (short.trans limit)
  have read' := CTxIn.reads ⟨COutPoint.null, other.scriptSig, 0xffffffff⟩ (short'.trans limit)
  have both := congrArg CTxIn.unserialize inputs
  rw [read, read'] at both
  exact congrArg (fun pair : CTxIn × Bytes => pair.1.scriptSig) (Option.some.inj both)

theorem Made.root_ne {call : WorkCall} {tip : WorkTip} {works : List HandedOut} {work other : HandedOut}
    (made : work.Made call tip) (made' : other.Made call tip) (free : WorkRun.Collisionless works)
    (member : work ∈ works) (member' : other ∈ works) (apart : work.nExtraNonce ≠ other.nExtraNonce) :
    work.pblock.header.hashMerkleRoot ≠ other.pblock.header.hashMerkleRoot := by
  intro same
  have sound := free.trees work member other member'
  rw [made.root, made'.root, CBlock.buildMerkleTree_eq, CBlock.buildMerkleTree_eq] at same
  have coinbase : work.pblock.coinbase.getHash = other.pblock.coinbase.getHash := MerkleSound.head_eq sound same
  have scripts := scriptSig_eq_of_serialize made.short made'.short (free.coinbases work member other member' coinbase)
  rw [made.scriptSig, made'.scriptSig] at scripts
  exact apart (coinbaseScript_injective scripts)

end HandedOut

namespace WorkRun

variable [Hashing] {settings : Settings} {call : WorkCall} {s : WorkRun}

def Counted (works : List HandedOut) (nExtraNonce : UInt32) : Prop :=
  ∀ i work, works[i]? = some work → work.nExtraNonce = nExtraNonce - UInt32.ofNat i

omit [Hashing] in
theorem Counted.cons {works : List HandedOut} {nExtraNonce : UInt32} (counted : Counted works nExtraNonce)
    {work : HandedOut} (next : work.nExtraNonce = nExtraNonce + 1) : Counted (work :: works) work.nExtraNonce := by
  intro i other found
  cases i with
  | zero =>
      cases found
      simp
  | succ i =>
      rw [List.getElem?_cons_succ] at found
      rw [counted i other found, next, Nat.succ_eq_add_one, UInt32.ofNat_add]
      grind

theorem distinct_roots {tip : WorkTip} {works : List HandedOut} {nExtraNonce : UInt32}
    (made : ∀ work ∈ works, work.Made call tip) (counted : Counted works nExtraNonce) (few : works.length ≤ 2 ^ 32)
    (free : Collisionless works) : works.Pairwise fun work other =>
      work.pblock.header.hashMerkleRoot ≠ other.pblock.header.hashMerkleRoot := by
  rw [List.pairwise_iff_getElem]
  intro i j inside inside' less
  have member := List.getElem_mem inside
  have member' := List.getElem_mem inside'
  have apart : works[i].nExtraNonce ≠ works[j].nExtraNonce := by
    rw [counted i _ (List.getElem?_eq_getElem inside), counted j _ (List.getElem?_eq_getElem inside')]
    intro same
    have numbers : UInt32.ofNat i = UInt32.ofNat j := by grind
    have places := congrArg UInt32.toNat numbers
    rw [UInt32.toNat_ofNat', UInt32.toNat_ofNat', Nat.mod_eq_of_lt (by omega), Nat.mod_eq_of_lt (by omega)] at places
    omega
  exact (made _ member).root_ne (made _ member') free member member' apart

/-- The works are held, and the counter has gone on from each of them. -/
structure Inv (call : WorkCall) (s : WorkRun) : Prop where
  made : ∀ work ∈ s.issued, work.Made call s.tip
  held : ∀ work ∈ s.issued, work.Held s.node
  counted : Counted s.issued s.node.nExtraNonce
  few : s.issued.length ≤ 2 ^ 32
  static : s.issued ≠ [] → s.node.hashPrevBlock = s.tip.hash

theorem Inv.of_nil (none : s.issued = []) : Inv call s := by
  constructor <;> rw [none]
  · exact List.forall_mem_nil _
  · exact List.forall_mem_nil _
  · intro i work found
    cases found
  · exact Nat.zero_le _
  · exact fun nonempty => absurd rfl nonempty

theorem Inv.extends_ (inv : Inv call s) {node : WorkNode} (extends_ : s.node.Extends node) :
    Inv call { s with node } where
  made := inv.made
  held work member := by
    obtain ⟨place, pblock, mapped, found, keeps⟩ := inv.held work member
    refine ⟨place, pblock, ?_, extends_.templates place pblock found, keeps⟩
    change node.mapNewBlock[_]? = _
    rw [extends_.mapNewBlock]
    exact mapped
  counted := by
    change Counted s.issued node.nExtraNonce
    rw [extends_.nExtraNonce]
    exact inv.counted
  few := inv.few
  static nonempty := extends_.hashPrevBlock.trans (inv.static nonempty)

theorem Inv.submit (inv : Inv call s) (context : WorkContext) (vchData : Bytes) :
    Inv call (s.step settings call (.submit context vchData)) := by
  change Inv call { s with node := (s.node.submitWork call context vchData).1 }
  rcases WorkNode.submitWork_cases call context vchData s.node with same | ⟨place, before, after, found, keeps, same⟩
  · rw [same]
    exact inv
  · rw [same]
    refine ⟨inv.made, fun work member => ?_, inv.counted, inv.few, inv.static⟩
    obtain ⟨other, pblock, mapped, there, kept⟩ := inv.held work member
    obtain ⟨next, replaced, keeps'⟩ := exists_keeps_of_set found keeps there
    exact ⟨other, next, mapped, replaced, keeps'.trans kept⟩

theorem templates_after {context : WorkContext} {middle next : WorkNode} {before pblock : CBlockTemplate} {unset}
    (meets : s.Meets settings (.ask context unset)) (nonempty : s.issued ≠ [])
    (prepared : WorkNode.Prepared settings s.tip context s.node middle)
    (template : (¬ s.node.Renews s.tip context ∧ middle = s.node) ∨
      (s.node.pindexPrev = some s.tip.hash → middle.pblocktemplate = s.node.vNewBlockTemplate.length))
    (updated : WorkNode.Updated settings s.tip context middle before pblock next.nExtraNonce)
    {place : Nat} {old : CBlockTemplate} (there : s.node.vNewBlockTemplate[place]? = some old) :
    ∃ kept, (middle.vNewBlockTemplate.set middle.pblocktemplate pblock)[place]? = some kept ∧ kept.Keeps old := by
  obtain ⟨remembered, _, bits⟩ := meets.resolve_left nonempty
  have old_there := (prepared.extends_ remembered).templates place old there
  rcases template with ⟨still, rfl⟩ | fresh
  · have same : pblock.header.nBits = before.header.nBits := by
      rcases updated.nBits with same | ⟨test, required⟩
      · exact same
      · exact bits test still before updated.found _ required
    exact exists_keeps_of_set updated.found (updated.keeps same) old_there
  · have inside := (List.getElem?_eq_some_iff.mp there).1
    have apart : middle.pblocktemplate ≠ place := by
      rw [fresh remembered]
      omega
    exact ⟨old, by rw [List.getElem?_set_ne apart, old_there], .refl old⟩

theorem Inv.ask {context : WorkContext} {unset : { bytes : Bytes // bytes.length = 48 }} {next : WorkNode}
    {pblock : CBlockTemplate} (inv : Inv call s) (current : s.node.Current)
    (meets : s.Meets settings (.ask context unset))
    (run : s.node.askWork settings s.tip context = (next, .ok pblock))
    (free : Collisionless (⟨pblock, call.pdata pblock.header unset, next.nExtraNonce⟩ :: s.issued)) :
    Inv call { s with node := next, issued := ⟨pblock, call.pdata pblock.header unset, next.nExtraNonce⟩ :: s.issued } := by
  obtain ⟨middle, prepared, remembered, template, handed⟩ := WorkNode.askWork_eq_ok run
  obtain ⟨before, updated, node⟩ := WorkNode.nextWork_eq_ok handed
  have onTip : before.header.hashPrevBlock = s.tip.hash := by
    obtain ⟨other, found, same⟩ := prepared.current current _ remembered
    cases found.symm.trans updated.found
    exact same
  have made : ∀ work ∈ (⟨pblock, call.pdata pblock.header unset, next.nExtraNonce⟩ : HandedOut) :: s.issued,
      work.Made call s.tip := by
    refine List.forall_mem_cons.mpr ⟨⟨updated.scriptSig, updated.short, updated.root, unset.val, unset.property, rfl⟩, ?_⟩
    exact inv.made
  have counted : Counted (⟨pblock, call.pdata pblock.header unset, next.nExtraNonce⟩ :: s.issued) next.nExtraNonce := by
    by_cases none : s.issued = []
    · rw [none]
      have empty : Counted [] (next.nExtraNonce - 1) := fun i work found => by cases found
      exact empty.cons (by grind)
    · have same : middle.hashPrevBlock = before.header.hashPrevBlock := by
        rw [prepared.counter.2, inv.static none, onTip]
      have counter := updated.counter
      rw [nextExtraNonce, if_neg (not_not.mpr same), prepared.counter.1] at counter
      exact inv.counted.cons counter
  have few : s.issued.length + 1 ≤ 2 ^ 32 := by
    rcases meets with none | ⟨_, few, _⟩
    · rw [none]
      decide
    · exact few
  have distinct := distinct_roots made counted few free
  constructor
  case made => exact made
  case counted => exact counted
  case few => exact few
  case static =>
    intro _
    change next.hashPrevBlock = s.tip.hash
    rw [node]
    exact updated.hashPrevBlock.trans onTip
  case held =>
    refine List.forall_mem_cons.mpr ⟨?_, fun work member => ?_⟩
    · refine ⟨middle.pblocktemplate, pblock, ?_, ?_, .refl pblock⟩
      · change next.mapNewBlock[pblock.header.hashMerkleRoot]? = _
        rw [node, lookup_insert, if_pos rfl]
      · change next.vNewBlockTemplate[_]? = _
        rw [node, List.getElem?_set_self', updated.found]
        rfl
    · have nonempty : s.issued ≠ [] := List.ne_nil_of_mem member
      have other := (List.pairwise_cons.mp distinct).1 work member
      obtain ⟨place, old, mapped, there, keeps⟩ := inv.held work member
      obtain ⟨kept, replaced, keeps'⟩ := templates_after meets nonempty prepared template updated there
      refine ⟨place, kept, ?_, ?_, keeps'.trans keeps⟩
      · change next.mapNewBlock[_]? = _
        have tipKept := (meets.resolve_left nonempty).1
        rw [node, lookup_insert, if_neg other.symm, (prepared.extends_ tipKept).mapNewBlock]
        exact mapped
      · change next.vNewBlockTemplate[_]? = _
        rw [node]
        exact replaced

theorem step_current (current : s.node.Current) (event : WorkEvent) : (s.step settings call event).node.Current := by
  cases event with
  | ask context unset =>
      rw [step]
      split
      · rename_i node failure run
        exact (WorkNode.askWork_eq_error run).current current
      · rename_i node pblock run
        obtain ⟨middle, prepared, _, _, handed⟩ := WorkNode.askWork_eq_ok run
        obtain ⟨before, updated, same⟩ := WorkNode.nextWork_eq_ok handed
        change node.Current
        rw [same]
        intro hash remembered
        obtain ⟨other, found, onHash⟩ := prepared.current current hash remembered
        cases found.symm.trans updated.found
        refine ⟨pblock, ?_, updated.hashPrevBlock.trans onHash⟩
        rw [List.getElem?_set_self', updated.found]
        rfl
  | submit context vchData =>
      change (s.node.submitWork call context vchData).1.Current
      rcases WorkNode.submitWork_cases call context vchData s.node with same | ⟨place, before, after, found, keeps, same⟩
      · rw [same]
        exact current
      · rw [same]
        intro hash remembered
        obtain ⟨other, there, onHash⟩ := current hash remembered
        obtain ⟨next, replaced, keeps'⟩ := exists_keeps_of_set found keeps there
        exact ⟨next, replaced, keeps'.hashPrevBlock.trans onHash⟩
  | tip tip =>
      rw [step]
      split
      · exact current
      · exact current
  | other hashPrevBlock => exact current

theorem step_inv {event : WorkEvent} (current : s.node.Current) (meets : s.Meets settings event)
    (inv : Collisionless s.issued → Inv call s) (free : Collisionless (s.step settings call event).issued) :
    Inv call (s.step settings call event) := by
  cases event with
  | ask context unset =>
      rw [step] at free ⊢
      split at free
      · rename_i node failure run
        by_cases none : s.issued = []
        · exact .of_nil none
        · have remembered := (meets.resolve_left none).1
          exact (inv free).extends_ ((WorkNode.askWork_eq_error run).extends_ remembered)
      · rename_i node pblock run
        have before : Collisionless s.issued :=
          ⟨fun work member other member' => free.trees work (.tail _ member) other (.tail _ member'),
            fun work member other member' => free.coinbases work (.tail _ member) other (.tail _ member')⟩
        exact (inv before).ask current meets run free
  | submit context vchData => exact (inv free).submit context vchData
  | tip tip =>
      rw [step] at free ⊢
      by_cases same : tip.hash = s.tip.hash
      · rw [if_pos same] at free ⊢
        exact inv free
      · rw [if_neg same]
        exact .of_nil rfl
  | other hashPrevBlock =>
      have before := inv free
      refine ⟨before.made, before.held, before.counted, before.few, fun nonempty => ?_⟩
      exact meets.resolve_left nonempty

theorem Reached.inv {tip : WorkTip} (reached : Reached settings call tip s) :
    s.node.Current ∧ (Collisionless s.issued → Inv call s) := by
  induction reached with
  | start =>
      refine ⟨fun hash remembered => ?_, fun _ => .of_nil rfl⟩
      cases remembered
  | step event reached meets ih => exact ⟨step_current ih.1 event, step_inv ih.1 meets ih.2⟩

theorem Inv.submits (inv : Inv call s) {work : HandedOut} (member : work ∈ s.issued) {context : WorkContext}
    {vchData : Bytes} (serves : context.serves = .ok ()) (changed : SameButTimeAndNonce work.data vchData) :
    ∃ block, (s.node.submitWork call context vchData).2 = .ok (some block) ∧
      block.toCBlockHeader = call.read vchData ∧ block.vtx = work.pblock.block.vtx := by
  obtain ⟨unset, length, data⟩ := (inv.made work member).data
  obtain ⟨place, pblock, mapped, found, keeps⟩ := inv.held work member
  rw [data] at changed
  have long : vchData.length = 128 := changed.length.trans (call.pdata_length work.pblock.header length)
  have read := call.read_changed work.pblock.header length changed
  have root : (call.read vchData).hashMerkleRoot = work.pblock.header.hashMerkleRoot := by rw [read]
  have vtx : (pblock.submitted (call.read vchData) work.pblock.scriptSig).block.vtx = work.pblock.block.vtx := by
    simp only [CBlockTemplate.submitted, CBlockTemplate.rebuilt, CBlockTemplate.block, CBlockTemplate.coinbase,
      keeps.nValue, keeps.scriptPubKey, keeps.others]
  refine ⟨(pblock.submitted (call.read vchData) work.pblock.scriptSig).block, ?_, ?_, vtx⟩
  · unfold WorkNode.submitWork
    rw [serves]
    dsimp only
    rw [if_neg (not_not.mpr long), root, mapped]
    dsimp only
    rw [found]
  · have rebuilt : (pblock.submitted (call.read vchData) work.pblock.scriptSig).header.hashMerkleRoot =
        work.pblock.header.hashMerkleRoot := by
      rw [(inv.made work member).root, CBlock.buildMerkleTree_eq, ← vtx, ← CBlock.buildMerkleTree_eq]
      rfl
    refine Eq.trans ?_ read.symm
    change (pblock.submitted (call.read vchData) work.pblock.scriptSig).header = _
    simp only [CBlockTemplate.submitted, CBlockTemplate.rebuilt] at rebuilt ⊢
    rw [rebuilt, keeps.nVersion, keeps.hashPrevBlock, keeps.nBits]

/-- In every run whose steps meet the condition, the work since the tip has changed can be submitted. -/
theorem reached_submittable {tip : WorkTip} (reached : Reached settings call tip s) (free : Collisionless s.issued) :
    Submittable call s := by
  have inv := reached.inv.2 free
  constructor
  case distinct => exact distinct_roots inv.made inv.counted inv.few free
  case submits => exact fun work member context vchData serves changed => inv.submits member serves changed
  case unknown =>
    intro context vchData serves long unknown
    unfold WorkNode.submitWork
    rw [serves]
    dsimp only
    rw [if_neg (not_not.mpr long), unknown]

end WorkRun

/-! ## Samples -/

namespace Sample

def workContext (adjustedTime : Int) : WorkContext where
  fConnected := true
  fInitialDownload := false
  nTransactionsUpdated := 0
  time := adjustedTime
  nStart := adjustedTime
  adjustedTime
  parts := some ⟨[2], [], 0, adjustedTime, true⟩

def testNetwork : Settings := ⟨true, false, 0, 0, 0, 1400000000⟩

def workTip : WorkTip where
  hash := 4
  pindex := { CBlockIndex.ofHeader ⟨1, 3, 0, 1400000000, 0x1d00ffff, 0⟩ with phashBlock := some 4, nHeight := 5 }
  ancestors := []

def askAt (adjustedTime : Int) : WorkEvent := .ask (workContext adjustedTime) ⟨List.replicate 48 0, List.length_replicate⟩

/-- A call one minute behind the tip, and one more -/
def twoWorks (later : Int) : WorkRun :=
  ((WorkRun.start workTip).step testNetwork .getwork (askAt 1400000060)).step testNetwork .getwork (askAt later)

/-- The bits of the block that a submission makes -/
def bitsOf : Except Failure (Option CBlock) → Option UInt32
  | .ok (some block) => some block.nBits
  | _ => none

theorem collisionless_of_alone {works : List HandedOut} (alone : ∀ work ∈ works, work.pblock.others = [])
    (coinbases : ∀ work ∈ works, ∀ other ∈ works, work.pblock.coinbase.getHash = other.pblock.coinbase.getHash →
      work.pblock.coinbase.serialize = other.pblock.coinbase.serialize) : WorkRun.Collisionless works where
  trees work member other member' := by
    have short : ∀ work ∈ works, (work.pblock.block.vtx.map CTransaction.getHash).length ≤ 1 := by
      intro work member
      simp [CBlockTemplate.block, alone work member]
    have unhashed : ∀ left right, ¬ (MerklePair (work.pblock.block.vtx.map CTransaction.getHash) left right ∨
        MerklePair (other.pblock.block.vtx.map CTransaction.getHash) left right) := by
      intro left right hashed
      exact hashed.elim (merklePair_none (short work member)) (merklePair_none (short other member'))
    constructor
    · intro left right left' right' hashed
      exact absurd hashed (unhashed left right)
    · intro left right hashed
      exact absurd hashed (unhashed left right)
  coinbases := coinbases

end Sample

open Sample WorkRun

/-- Both times are less than two minutes behind the tip. -/
theorem reached_submittable_sample : Submittable .getwork (twoWorks 1400000090) := by
  have first : Reached testNetwork .getwork workTip ((start workTip).step testNetwork .getwork (askAt 1400000060)) :=
    .step (askAt 1400000060) .start (.inl rfl)
  refine reached_submittable (.step (askAt 1400000090) first (.inr ⟨?_, ?_, ?_⟩)) ?_
  · decide +kernel
  · decide +kernel
  · intro _ _ pblock found nBits required
    have template : ∀ pblock ∈ ((start workTip).step testNetwork .getwork (askAt 1400000060)).node.vNewBlockTemplate,
        getNextWorkRequired testNetwork workTip.chain (workTip.newTime 1400000090) = .ok pblock.header.nBits := by
      decide +kernel
    exact Except.ok.inj (required.symm.trans (template pblock (List.mem_of_getElem? found)))
  · exact collisionless_of_alone (by decide +kernel) (by decide +kernel)

/-- The second call makes the bits of the first work easier. -/
theorem later_work_changes_bits :
    Collisionless (twoWorks 1400000200).issued ∧ ¬ Submittable .getwork (twoWorks 1400000200) := by
  refine ⟨collisionless_of_alone (by decide +kernel) (by decide +kernel), fun submittable => ?_⟩
  have bits : ∃ work ∈ (twoWorks 1400000200).issued,
      bitsOf ((twoWorks 1400000200).node.submitWork .getwork (workContext 0) work.data).2 = some 0x1e0fffff ∧
        (WorkCall.getwork.read work.data).nBits = 0x1d00ffff := by
    decide +kernel
  obtain ⟨work, member, changed, before⟩ := bits
  obtain ⟨block, answer, header, _⟩ := submittable.submits work member (workContext 0) work.data rfl ⟨rfl, fun _ _ _ => rfl⟩
  rw [answer] at changed
  have same : block.nBits = 0x1d00ffff := (congrArg CBlockHeader.nBits header).trans before
  cases same.symm.trans (Option.some.inj changed)

end BitCrystal
