import BitCrystal.Compact
import Mathlib.Data.List.Sort

namespace BitCrystal

open Data

/-! # The work that a block must show

A chain is an entry of the block tree with its ancestors behind it, the root last. -/

def nTargetTimespan : Int := 60 * 60
def nTargetSpacing : Int := 60
def nInterval : Int := nTargetTimespan / nTargetSpacing

def CBlockIndex.getBlockTime (pindex : CBlockIndex) : Int :=
  pindex.nTime.toNat

/-! ## GetNextWorkRequired -/

/-- The last block that the special rule of the test network does not concern. -/
def lastRegular (pindex : CBlockIndex) : List CBlockIndex → CBlockIndex
  | [] => pindex
  | pprev :: ancestors =>
      if pindex.nHeight % nInterval ≠ 0 ∧ pindex.nBits = getCompact bnProofOfWorkLimit then
        lastRegular pprev ancestors
      else pindex

def retarget (nBits : UInt32) (nActualTimespan : Int) : UInt32 :=
  let nActualTimespan := if nActualTimespan < nTargetTimespan / 4 then nTargetTimespan / 4 else nActualTimespan
  let nActualTimespan := if nTargetTimespan * 4 < nActualTimespan then nTargetTimespan * 4 else nActualTimespan
  let bnNew := (setCompact nBits * nActualTimespan).tdiv nTargetTimespan
  getCompact (if bnProofOfWorkLimit < bnNew then bnProofOfWorkLimit else bnNew)

def getNextWorkRequired (settings : Settings) (chain : List CBlockIndex) (nTime : UInt32) :
    Except Failure UInt32 :=
  match chain with
  | [] => .ok (getCompact bnProofOfWorkLimit)
  | pindexLast :: ancestors =>
      if (pindexLast.nHeight + 1) % nInterval ≠ 0 then
        if settings.fTestNet then
          if pindexLast.getBlockTime + nTargetSpacing * 2 < nTime.toNat then .ok (getCompact bnProofOfWorkLimit)
          else .ok (lastRegular pindexLast ancestors).nBits
        else .ok pindexLast.nBits
      else do
        -- `nInterval-1` steps back, and the assertion that there are as many
        let pindexFirst ← expect (pindexLast :: ancestors)[(nInterval - 1).toNat]? (.undefined "GetNextWorkRequired")
        return retarget pindexLast.nBits (pindexLast.getBlockTime - pindexFirst.getBlockTime)

/-! ## The rules of AcceptBlock for a header -/

def nMedianTimeSpan : Nat := 12

/-- GetMedianTimePast, which takes the time two thirds up. -/
def getMedianTimePast (chain : List CBlockIndex) : Int :=
  let pmedian := ((chain.take nMedianTimeSpan).map CBlockIndex.getBlockTime).insertionSort (· ≤ ·)
  pmedian[pmedian.length * 2 / 3]?.getD 0

/-- What AcceptBlock asks of a header behind the chain of `pindexPrev`. -/
def acceptHeader (settings : Settings) (chain : List CBlockIndex) (nTime nBits : UInt32) : Except Failure Unit := do
  let nWorkRequired ← getNextWorkRequired settings chain nTime
  require (nBits = nWorkRequired) (.dos 100 "AcceptBlock() : incorrect proof of work")
  require (getMedianTimePast chain < nTime.toNat) (.dos 0 "AcceptBlock() : block's timestamp is too early")

/-! ## The extra checks of ProcessBlock -/

/-- The loop of ComputeMinWork, which has as many turns as there is time at most. -/
def minWorkLoop : Nat → Int → Int → Int
  | 0, _, bnResult => bnResult
  | turns + 1, nTime, bnResult =>
      if 0 < nTime ∧ bnResult < bnProofOfWorkLimit then
        minWorkLoop turns (nTime - nTargetTimespan * 4) (bnResult * 4)
      else bnResult

def computeMinWork (settings : Settings) (nBase : UInt32) (nTime : Int) : UInt32 :=
  if settings.fTestNet ∧ nTargetSpacing * 2 < nTime then getCompact bnProofOfWorkLimit
  else
    let bnResult := minWorkLoop nTime.toNat nTime (setCompact nBase)
    getCompact (if bnProofOfWorkLimit < bnResult then bnProofOfWorkLimit else bnResult)

def mapCheckpoints (settings : Settings) : List (Int × UInt256) :=
  if settings.fTestNet then
    [(0, 0x00000acca43db71292e222b3b93bf71e765484276ff373feff2ecf92cbfb5936)]
  else
    [(0, 0x00000acca43db71292e222b3b93bf71e765484276ff373feff2ecf92cbfb5936),
      (20080, 0x000000034154af150f2ea7b36b3c436ce7814e31e74006c7f3531311f0ef3548)]

/-- The loop of GetLastCheckpoint; the return of the entry that is found has been
commented out for a null pointer. -/
def lastCheckpoint (mapBlockIndex : BlockMap) : List (Int × UInt256) → Option CBlockIndex
  | [] => none
  | (_, hash) :: checkpoints =>
      if (mapBlockIndex hash).isSome then none else lastCheckpoint mapBlockIndex checkpoints

def getLastCheckpoint (settings : Settings) (fCheckpoints : Bool) (mapBlockIndex : BlockMap) : Option CBlockIndex :=
  if fCheckpoints then lastCheckpoint mapBlockIndex (mapCheckpoints settings).reverse else none

/-- The extra checks of ProcessBlock against a flood of bogus blocks. -/
def checkpointTest (settings : Settings) (pcheckpoint : Option CBlockIndex) (hashBestChain : UInt256)
    (block : CBlockHeader) : Except Failure Unit :=
  match pcheckpoint with
  | none => .ok ()
  | some pcheckpoint =>
      if block.hashPrevBlock = hashBestChain then .ok ()
      else do
        let deltaTime := block.getBlockTime - pcheckpoint.getBlockTime
        require (0 ≤ deltaTime) (.dos 100 "ProcessBlock() : block with timestamp before last checkpoint")
        let nBitsRequired := computeMinWork settings pcheckpoint.nBits deltaTime
        require (setCompact block.nBits ≤ setCompact nBitsRequired)
          (.dos 100 "ProcessBlock() : block with too little proof-of-work")

theorem getLastCheckpoint_eq_none (settings : Settings) (fCheckpoints : Bool) (mapBlockIndex : BlockMap) :
    getLastCheckpoint settings fCheckpoints mapBlockIndex = none := by
  have loop (checkpoints : List (Int × UInt256)) : lastCheckpoint mapBlockIndex checkpoints = none := by
    induction checkpoints with
    | nil => rfl
    | cons checkpoint rest ih =>
        unfold lastCheckpoint
        split
        · rfl
        · exact ih
  unfold getLastCheckpoint
  split
  · exact loop _
  · rfl

/-! ## ComputeMinWork in closed form -/

/-- How many times four hours have begun. -/
def startedPeriods (nTime : Int) : Nat :=
  ((nTime + nTargetTimespan * 4 - 1) / (nTargetTimespan * 4)).toNat

theorem startedPeriods_of_le {nTime : Int} (ended : nTime ≤ 0) : startedPeriods nTime = 0 := by
  unfold startedPeriods nTargetTimespan
  omega

theorem startedPeriods_succ {nTime : Int} (left : 0 < nTime) :
    startedPeriods nTime = startedPeriods (nTime - nTargetTimespan * 4) + 1 := by
  unfold startedPeriods nTargetTimespan
  omega

theorem minWorkLoop_capped {turns : Nat} {nTime bnResult : Int} (enough : nTime ≤ turns) (positive : 0 < bnResult) :
    min (minWorkLoop turns nTime bnResult) bnProofOfWorkLimit =
      min (bnResult * 4 ^ startedPeriods nTime) bnProofOfWorkLimit := by
  induction turns generalizing nTime bnResult with
  | zero => rw [minWorkLoop, startedPeriods_of_le (by omega), pow_zero, mul_one]
  | succ turns ih =>
      unfold minWorkLoop
      by_cases left : 0 < nTime
      · have grown : bnResult * 4 ^ startedPeriods nTime =
            bnResult * 4 * 4 ^ startedPeriods (nTime - nTargetTimespan * 4) := by
          rw [startedPeriods_succ left, pow_succ]
          ring
        by_cases below : bnResult < bnProofOfWorkLimit
        · rw [if_pos ⟨left, below⟩, ih (by unfold nTargetTimespan; omega) (by omega), grown]
        · have power : (1 : Int) ≤ 4 ^ startedPeriods nTime := one_le_pow₀ (by norm_num)
          have larger : bnResult ≤ bnResult * 4 ^ startedPeriods nTime := le_mul_of_one_le_right (by omega) power
          rw [if_neg fun both => below both.2, min_eq_right (by omega), min_eq_right (by omega)]
      · rw [if_neg fun both => left both.1, startedPeriods_of_le (by omega), pow_zero, mul_one]

theorem computeMinWork_eq {settings : Settings} {nBase : UInt32} {nTime : Int} (positive : 0 < setCompact nBase) :
    computeMinWork settings nBase nTime =
      if settings.fTestNet ∧ nTargetSpacing * 2 < nTime then getCompact bnProofOfWorkLimit
      else getCompact (min (setCompact nBase * 4 ^ startedPeriods nTime) bnProofOfWorkLimit) := by
  have capped (n : Int) : (if bnProofOfWorkLimit < n then bnProofOfWorkLimit else n) = min n bnProofOfWorkLimit := by
    split <;> omega
  unfold computeMinWork
  simp only [capped]
  rw [minWorkLoop_capped (by omega) positive]

end BitCrystal
