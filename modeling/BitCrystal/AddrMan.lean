import BitCrystal.NetAddr
import BitCrystal.Primitives
import Mathlib.Data.Finset.Sort
import Mathlib.Data.Int.ConditionallyCompleteOrder
import Mathlib.Order.Lattice.Nat
import Std.Data.ExtTreeMap

namespace BitCrystal

open Data

/-! # The address manager -/

def ADDRMAN_TRIED_BUCKET_COUNT : Nat := 64
def ADDRMAN_TRIED_BUCKET_SIZE : Nat := 64
def ADDRMAN_NEW_BUCKET_COUNT : Nat := 256
def ADDRMAN_NEW_BUCKET_SIZE : Nat := 64
def ADDRMAN_TRIED_BUCKETS_PER_GROUP : Nat := 4
def ADDRMAN_NEW_BUCKETS_PER_SOURCE_GROUP : Nat := 32
def ADDRMAN_NEW_BUCKETS_PER_ADDRESS : Int := 4
def ADDRMAN_TRIED_ENTRIES_INSPECT_ON_EVICT : Nat := 4
def ADDRMAN_HORIZON_DAYS : Int := 30
def ADDRMAN_RETRIES : Int := 3
def ADDRMAN_MAX_FAILURES : Int := 10
def ADDRMAN_MIN_FAIL_DAYS : Int := 7
def ADDRMAN_GETADDR_MAX_PCT : Nat := 23
def ADDRMAN_GETADDR_MAX : Nat := 2500

instance neZero_tried : NeZero ADDRMAN_TRIED_BUCKET_COUNT := ⟨by decide⟩
instance neZero_new : NeZero ADDRMAN_NEW_BUCKET_COUNT := ⟨by decide⟩

/-- The order of the ids in a `std::set<int>`. -/
instance isTrans_id : IsTrans Int (· ≤ ·) := inferInstance
instance antisymm_id : Std.Antisymm (α := Int) (· ≤ ·) := inferInstance
instance total_id : Std.Total (α := Int) (· ≤ ·) := inferInstance

/-- An entry; Create sets `nRandomPos` when it makes one. -/
structure CAddrInfo extends CAddress where
  nLastTry : Int
  source : CNetAddr
  nLastSuccess : Int
  nAttempts : Int
  nRefCount : Int
  fInTried : Bool
  nRandomPos : Nat
deriving DecidableEq

namespace CAddrInfo

/-- `ss << vch` for a vector of bytes -/
def writeVch (vch : Bytes) : Bytes := writeCompactSize vch.length ++ vch

section

variable [Hashing]

/-- `Hash2(ss.begin(), ss.end()).Get64()` -/
def get64 (ss : Bytes) : Nat := (Hashing.Hash ss).toNat % 2 ^ 64

def getTriedBucket (info : CAddrInfo) (nKey : Bytes) : Fin ADDRMAN_TRIED_BUCKET_COUNT :=
  let hash1 := get64 (writeVch nKey ++ writeVch info.service.getKey)
  let hash2 := get64 (writeVch nKey ++ writeVch (NetAddr.getGroup info.service.addr) ++
    littleEndian 8 (hash1 % ADDRMAN_TRIED_BUCKETS_PER_GROUP))
  Fin.ofNat _ hash2

def getNewBucket (info : CAddrInfo) (nKey : Bytes) (src : CNetAddr) : Fin ADDRMAN_NEW_BUCKET_COUNT :=
  let hash1 := get64 (writeVch nKey ++ writeVch (NetAddr.getGroup info.service.addr) ++
    writeVch (NetAddr.getGroup src))
  let hash2 := get64 (writeVch nKey ++ writeVch (NetAddr.getGroup src) ++
    littleEndian 8 (hash1 % ADDRMAN_NEW_BUCKETS_PER_SOURCE_GROUP))
  Fin.ofNat _ hash2

end

def isTerrible (info : CAddrInfo) (nNow : Int) : Bool :=
  if info.nLastTry ≠ 0 ∧ nNow - 60 ≤ info.nLastTry then false
  else
    nNow + 10 * 60 < info.nTime.toNat ||
      (info.nTime = 0 || ADDRMAN_HORIZON_DAYS * 86400 < nNow - info.nTime.toNat) ||
      (info.nLastSuccess = 0 && ADDRMAN_RETRIES ≤ info.nAttempts) ||
      (ADDRMAN_MIN_FAIL_DAYS * 86400 < nNow - info.nLastSuccess && ADDRMAN_MAX_FAILURES ≤ info.nAttempts)

end CAddrInfo

structure CAddrMan where
  nKey : Bytes
  nIdCount : Int
  mapInfo : Std.ExtTreeMap Int CAddrInfo
  mapAddr : Std.ExtTreeMap CNetAddr Int
  vRandom : List Int
  nTried : Int
  vvTried : Fin ADDRMAN_TRIED_BUCKET_COUNT → List Int
  nNew : Int
  vvNew : Fin ADDRMAN_NEW_BUCKET_COUNT → Finset Int

/-- GetRandInt for the next of some random numbers. -/
def getRandInt (nRand nMax : Nat) : Nat := nRand % nMax

/-! The functions below fail where an assertion of the source fails. -/

namespace CAddrMan

def empty (nKey : Bytes) : CAddrMan := ⟨nKey, 0, ∅, ∅, [], 0, fun _ => [], 0, fun _ => ∅⟩

def find (s : CAddrMan) (addr : CNetAddr) : Option (Int × CAddrInfo) := do
  let nId ← s.mapAddr[addr]?
  let info ← s.mapInfo[nId]?
  return (nId, info)

/-- `mapInfo[nId] = info` -/
def setInfo (s : CAddrMan) (nId : Int) (info : CAddrInfo) : CAddrMan :=
  { s with mapInfo := s.mapInfo.insert nId info }

/-- The entry that Create makes for a new address. -/
def newInfo (s : CAddrMan) (addr : CAddress) (addrSource : CNetAddr) : CAddrInfo :=
  ⟨addr, 0, addrSource, 0, 0, 0, false, s.vRandom.length⟩

def create (s : CAddrMan) (addr : CAddress) (addrSource : CNetAddr) : CAddrMan :=
  { s with
    nIdCount := s.nIdCount + 1
    mapInfo := s.mapInfo.insert s.nIdCount (s.newInfo addr addrSource)
    mapAddr := s.mapAddr.insert addr.service.addr s.nIdCount
    vRandom := s.vRandom ++ [s.nIdCount] }

def swapRandom (s : CAddrMan) (nRndPos1 nRndPos2 : Nat) : Option CAddrMan :=
  if nRndPos1 = nRndPos2 then some s
  else do
    let nId1 ← s.vRandom[nRndPos1]?
    let nId2 ← s.vRandom[nRndPos2]?
    let info1 ← s.mapInfo[nId1]?
    let info2 ← s.mapInfo[nId2]?
    return { s with
      mapInfo := (s.mapInfo.insert nId1 { info1 with nRandomPos := nRndPos2 }).insert nId2
        { info2 with nRandomPos := nRndPos1 }
      vRandom := (s.vRandom.set nRndPos1 nId2).set nRndPos2 nId1 }

/-- The entry leaves the tables. -/
def deleteInfo (s : CAddrMan) (nId : Int) (info : CAddrInfo) : Option CAddrMan := do
  let s ← s.swapRandom info.nRandomPos (s.vRandom.length - 1)
  return { s with
    vRandom := s.vRandom.dropLast
    mapAddr := s.mapAddr.erase info.service.addr
    mapInfo := s.mapInfo.erase nId
    nNew := s.nNew - 1 }

/-- `if (--info.nRefCount == 0) ...; vNew.erase(nId)`, in both branches of ShrinkNew -/
def dropFromNew (s : CAddrMan) (nUBucket : Fin ADDRMAN_NEW_BUCKET_COUNT) (nId : Int) : Option CAddrMan := do
  let old ← s.mapInfo[nId]?
  let info := { old with nRefCount := old.nRefCount - 1 }
  let s := s.setInfo nId info
  let s ← if info.nRefCount = 0 then s.deleteInfo nId info else some s
  return { s with vvNew := Function.update s.vvNew nUBucket ((s.vvNew nUBucket).erase nId) }

def firstTerrible (s : CAddrMan) (nNow : Int) : List Int → Option (Option Int)
  | [] => some none
  | nId :: rest => do
      let info ← s.mapInfo[nId]?
      if info.isTerrible nNow then return some nId else s.firstTerrible nNow rest

/-- The oldest of the items at the positions `n`; the first of them is `nI`. -/
def oldestAt (s : CAddrMan) (n : List Nat) : Nat → Option Int → List Int → Option (Option Int)
  | _, nOldest, [] => some nOldest
  | nI, nOldest, nId :: rest =>
      if nI ∈ n then
        match nOldest with
        | none => s.oldestAt n (nI + 1) (some nId) rest
        | some old => do
            let info ← s.mapInfo[nId]?
            let infoOld ← s.mapInfo[old]?
            s.oldestAt n (nI + 1) (some (if info.nTime < infoOld.nTime then nId else old)) rest
      else s.oldestAt n (nI + 1) nOldest rest

/-- ShrinkNew, with random numbers from the first on. -/
def shrinkNew (s : CAddrMan) (rnd : Nat → Nat) (nNow : Int) (nUBucket : Fin ADDRMAN_NEW_BUCKET_COUNT) :
    Option CAddrMan := do
  let vNew := (s.vvNew nUBucket).sort (· ≤ ·)
  match ← s.firstTerrible nNow vNew with
  | some nId => s.dropFromNew nUBucket nId
  | none =>
      let n := (List.range 4).map fun i => getRandInt (rnd i) vNew.length
      let nOldest ← ← s.oldestAt n 0 none vNew
      s.dropFromNew nUBucket nOldest

/-- The loop of SelectTried, for `turns` more turns. -/
def selectLoop (s : CAddrMan) (rnd : Nat → Nat) :
    Nat → Nat → List Int → Option (Int × Nat) → Option (List Int × Option (Int × Nat))
  | 0, _, vTried, nOldest => some (vTried, nOldest)
  | turns + 1, i, vTried, nOldest =>
      if i < vTried.length then do
        let nPos := getRandInt (rnd i) (vTried.length - i) + i
        let nTemp ← vTried[nPos]?
        let other ← vTried[i]?
        let vTried := (vTried.set nPos other).set i nTemp
        match nOldest with
        | none => s.selectLoop rnd turns (i + 1) vTried (some (nTemp, nPos))
        | some (old, nOldestPos) => do
            let info ← s.mapInfo[nTemp]?
            let infoOld ← s.mapInfo[old]?
            s.selectLoop rnd turns (i + 1) vTried
              (some (if info.nLastSuccess < infoOld.nLastSuccess then (nTemp, nPos) else (old, nOldestPos)))
      else some (vTried, nOldest)

/-- SelectTried; nothing stands for its answer -1. -/
def selectTried (s : CAddrMan) (rnd : Nat → Nat) (nKBucket : Fin ADDRMAN_TRIED_BUCKET_COUNT) :
    Option (CAddrMan × Option Nat) := do
  let (vTried, nOldest) ← s.selectLoop rnd ADDRMAN_TRIED_ENTRIES_INSPECT_ON_EVICT 0 (s.vvTried nKBucket) none
  return ({ s with vvTried := Function.update s.vvTried nKBucket vTried }, nOldest.map Prod.snd)

section

variable [Hashing]

/-- The first part of MakeTried: the entry leaves all new buckets. -/
def leaveNew (s : CAddrMan) (nId : Int) (info : CAddrInfo) : CAddrMan × CAddrInfo :=
  let count := (Finset.univ.filter fun b => nId ∈ s.vvNew b).card
  let info := { info with nRefCount := info.nRefCount - count }
  ({ s.setInfo nId info with vvNew := fun b => (s.vvNew b).erase nId, nNew := s.nNew - 1 }, info)

/-- The last part of MakeTried: the entry at `nPos` goes back to a new bucket. -/
def evict (s : CAddrMan) (nId : Int) (nOrigin : Fin ADDRMAN_NEW_BUCKET_COUNT)
    (nKBucket : Fin ADDRMAN_TRIED_BUCKET_COUNT) (nPos : Nat) : Option CAddrMan := do
  let old ← (s.vvTried nKBucket)[nPos]?
  let infoOld ← s.mapInfo[old]?
  let info ← s.mapInfo[nId]?
  let nUBucket := infoOld.getNewBucket s.nKey infoOld.source
  let target := if (s.vvNew nUBucket).card < ADDRMAN_NEW_BUCKET_SIZE then nUBucket else nOrigin
  let s := s.setInfo old { infoOld with fInTried := false, nRefCount := 1 }
  let s := s.setInfo nId { info with fInTried := true }
  return { s with
    vvNew := Function.update s.vvNew target (insert old (s.vvNew target))
    nNew := s.nNew + 1
    vvTried := Function.update s.vvTried nKBucket ((s.vvTried nKBucket).set nPos nId) }

def makeTried (s : CAddrMan) (rnd : Nat → Nat) (nId : Int) (nOrigin : Fin ADDRMAN_NEW_BUCKET_COUNT) :
    Option CAddrMan := do
  let info ← s.mapInfo[nId]?
  if nId ∉ s.vvNew nOrigin then none
  else
    let (s, info) := s.leaveNew nId info
    if info.nRefCount ≠ 0 then none
    else
      let nKBucket := info.getTriedBucket s.nKey
      if (s.vvTried nKBucket).length < ADDRMAN_TRIED_BUCKET_SIZE then
        return { s.setInfo nId { info with fInTried := true } with
          vvTried := Function.update s.vvTried nKBucket (s.vvTried nKBucket ++ [nId])
          nTried := s.nTried + 1 }
      else
        let (s, nPos) ← s.selectTried rnd nKBucket
        let nPos ← nPos
        s.evict nId nOrigin nKBucket nPos

/-- The bucket in which Good_ finds the entry, from a random one on. -/
def findNew (s : CAddrMan) (nRnd : Nat) (nId : Int) : Option (Fin ADDRMAN_NEW_BUCKET_COUNT) :=
  ((List.range ADDRMAN_NEW_BUCKET_COUNT).map fun n =>
    (Fin.ofNat ADDRMAN_NEW_BUCKET_COUNT (n + nRnd))).find? fun nB => nId ∈ s.vvNew nB

/-- Good_; the first random number is that of Good_ itself. -/
def good_ (s : CAddrMan) (rnd : Nat → Nat) (addr : CService) (nTime : Int) : Option CAddrMan :=
  match s.find addr.addr with
  | none => some s
  | some (nId, info) =>
      if info.service ≠ addr then some s
      else
        let s := s.setInfo nId
          { info with nLastSuccess := nTime, nLastTry := nTime, nTime := UInt32.ofInt nTime, nAttempts := 0 }
        if info.fInTried then some s
        else
          match s.findNew (getRandInt (rnd 0) ADDRMAN_NEW_BUCKET_COUNT) nId with
          | none => some s
          | some nUBucket => s.makeTried (fun i => rnd (i + 1)) nId nUBucket

/-- How Add_ updates a known entry, and whether it goes on. -/
def updateKnown (info : CAddrInfo) (nRand : Nat) (nNow : Int) (addr : CAddress) (nTimePenalty : Int) :
    CAddrInfo × Bool :=
  let fCurrentlyOnline := nNow - addr.nTime.toNat < 24 * 60 * 60
  let nUpdateInterval : Int := if fCurrentlyOnline then 60 * 60 else 24 * 60 * 60
  let late := info.nTime.toNat < (addr.nTime.toNat : Int) - nUpdateInterval - nTimePenalty
  let nTime := if addr.nTime ≠ 0 ∧ (info.nTime = 0 ∨ late) then
    UInt32.ofInt (max 0 (addr.nTime.toNat - nTimePenalty)) else info.nTime
  let info := { info with nTime, nServices := info.nServices ||| addr.nServices }
  if addr.nTime = 0 ∨ (info.nTime ≠ 0 ∧ addr.nTime ≤ info.nTime) then (info, false)
  else if info.fInTried then (info, false)
  else if info.nRefCount = ADDRMAN_NEW_BUCKETS_PER_ADDRESS then (info, false)
  else
    let nFactor := 2 ^ info.nRefCount.toNat
    (info, !(1 < nFactor && getRandInt nRand nFactor ≠ 0))

/-- The last part of Add_, for an entry of the tables. -/
def enterNew (s : CAddrMan) (rnd : Nat → Nat) (nNow : Int) (nId : Int) (source : CNetAddr) :
    Option CAddrMan := do
  let info ← s.mapInfo[nId]?
  let nUBucket := info.getNewBucket s.nKey source
  if nId ∈ s.vvNew nUBucket then some s
  else
    let s := s.setInfo nId { info with nRefCount := info.nRefCount + 1 }
    let s ← if (s.vvNew nUBucket).card = ADDRMAN_NEW_BUCKET_SIZE then s.shrinkNew rnd nNow nUBucket else some s
    return { s with vvNew := Function.update s.vvNew nUBucket (insert nId (s.vvNew nUBucket)) }

/-- Add_ at the time `nNow`; the first random number is that of its own test. -/
def add_ (s : CAddrMan) (rnd : Nat → Nat) (nNow : Int) (addr : CAddress) (source : CNetAddr)
    (nTimePenalty : Int) : Option (CAddrMan × Bool) := do
  if !NetAddr.isRoutable addr.service.addr then return (s, false)
  else
    match s.find addr.service.addr with
    | some (nId, info) =>
        let (info, goesOn) := updateKnown info (rnd 0) nNow addr nTimePenalty
        let s := s.setInfo nId info
        if goesOn then
          let s ← s.enterNew (fun i => rnd (i + 1)) nNow nId source
          return (s, false)
        else return (s, false)
    | none =>
        let nId := s.nIdCount
        let info := s.newInfo addr source
        let s := (s.create addr source).setInfo nId
          { info with nTime := UInt32.ofInt (max 0 (info.nTime.toNat - nTimePenalty)) }
        let s ← { s with nNew := s.nNew + 1 }.enterNew (fun i => rnd (i + 1)) nNow nId source
        return (s, true)

/-- Add, for one or several addresses. -/
def add (s : CAddrMan) (rnd : Nat → Nat → Nat) (nNow : Int) (source : CNetAddr) (nTimePenalty : Int) :
    List CAddress → Option CAddrMan
  | [] => some s
  | addr :: rest => do
      let (s, _) ← s.add_ (rnd 0) nNow addr source nTimePenalty
      s.add (fun i => rnd (i + 1)) nNow source nTimePenalty rest

end

def attempt_ (s : CAddrMan) (addr : CService) (nTime : Int) : CAddrMan :=
  match s.find addr.addr with
  | none => s
  | some (nId, info) =>
      if info.service ≠ addr then s
      else s.setInfo nId { info with nLastTry := nTime, nAttempts := info.nAttempts + 1 }

def connected_ (s : CAddrMan) (addr : CService) (nTime : Int) : CAddrMan :=
  match s.find addr.addr with
  | none => s
  | some (nId, info) =>
      if info.service ≠ addr then s
      else if 20 * 60 < nTime - info.nTime.toNat then
        s.setInfo nId { info with nTime := UInt32.ofInt nTime }
      else s

/-- The loop of GetAddr_, for `nNodes` more nodes. -/
def getAddrLoop (rnd : Nat → Nat) : Nat → Nat → CAddrMan → Option (CAddrMan × List CAddress)
  | 0, _, s => some (s, [])
  | nNodes + 1, n, s => do
      let nRndPos := getRandInt (rnd n) (s.vRandom.length - n) + n
      let s ← s.swapRandom n nRndPos
      let nId ← s.vRandom[n]?
      let info ← s.mapInfo[nId]?
      let (s, vAddr) ← getAddrLoop rnd nNodes (n + 1) s
      return (s, info.toCAddress :: vAddr)

def getAddr_ (s : CAddrMan) (rnd : Nat → Nat) : Option (CAddrMan × List CAddress) :=
  getAddrLoop rnd (min (ADDRMAN_GETADDR_MAX_PCT * s.vRandom.length / 100) ADDRMAN_GETADDR_MAX) 0 s

end CAddrMan

end BitCrystal
