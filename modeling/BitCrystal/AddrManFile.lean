import BitCrystal.AddrManCheck
import BitCrystal.TransactionSerialize

namespace BitCrystal

open Data

/-! # The address manager in its file -/

/-- An `int` or an `int64` of `width` bytes. -/
def writeInt (width : Nat) (n : Int) : Bytes := littleEndian width (n % (256 ^ width : Nat)).toNat

def readInt (width : Nat) : Reader Int := do
  let n ← Reader.littleEndian width
  return (n : Int).bmod (256 ^ width)

/-- The range of the type. -/
def FitsInt (width : Nat) (n : Int) : Prop := -(256 ^ width : Nat) ≤ 2 * n ∧ 2 * n < (256 ^ width : Nat)

instance decidableFitsInt (width : Nat) (n : Int) : Decidable (FitsInt width n) :=
  inferInstanceAs (Decidable (_ ∧ _))

theorem FitsInt.of_le {width : Nat} {n bound : Int} (fits : FitsInt width bound) (nonneg : 0 ≤ n) (le : n ≤ bound) :
    FitsInt width n := by
  obtain ⟨low, high⟩ := fits
  constructor <;> omega

theorem readInt_reads {width : Nat} {n : Int} (fits : FitsInt width n) :
    Reads (readInt width) (writeInt width n) n := by
  obtain ⟨low, high⟩ := fits
  have positive : 0 < 256 ^ width := Nat.pow_pos (by decide)
  have nonneg : 0 ≤ n % (256 ^ width : Nat) := Int.emod_nonneg n (by omega)
  have below : n % (256 ^ width : Nat) < (256 ^ width : Nat) := Int.emod_lt_of_pos n (by omega)
  have within : (n % (256 ^ width : Nat)).toNat < 256 ^ width := by omega
  have reads := (Reads.littleEndian width _ within).map fun m : Nat => (m : Int).bmod (256 ^ width)
  rw [Int.toNat_of_nonneg nonneg, Int.emod_bmod, Int.bmod_eq_of_le_mul_two (by omega) (by omega)] at reads
  exact reads

theorem littleEndian_eq_map (width value : Nat) :
    littleEndian width value = (List.range width).map fun i => UInt8.ofNat (value / 256 ^ i) := by
  induction width generalizing value with
  | zero => rfl
  | succ width ih =>
      rw [littleEndian, ih, List.range_succ_eq_map, List.map_cons, List.map_map, Nat.pow_zero, Nat.div_one]
      simp only [Nat.div_div_eq_div_mul, Function.comp_def, Nat.pow_succ']

/-- A number with its most significant byte first. -/
def Reader.bigEndian (width : Nat) : Reader Nat := do
  let bytes ← Reader.take width
  return ofLittleEndian bytes.reverse

theorem bigEndian_reads {width value : Nat} (fits : value < 256 ^ width) :
    Reads (Reader.bigEndian width) (littleEndian width value).reverse value := by
  have length : (littleEndian width value).reverse.length = width := by simp
  have reads := (Reads.take_of_length length).map fun bytes => ofLittleEndian bytes.reverse
  rw [List.reverse_reverse, ofLittleEndian_littleEndian_of_lt fits] at reads
  exact reads

namespace NetAddr

def unserialize : Reader CNetAddr := do
  let ip ← Reader.bigEndian 16
  return BitVec.ofNat 128 ip

theorem ip_eq_reverse (addr : CNetAddr) : ip addr = (littleEndian 16 addr.toNat).reverse := by
  rw [littleEndian_eq_map]
  rfl

theorem reads (addr : CNetAddr) : Reads unserialize (ip addr) addr := by
  have fits : addr.toNat < 256 ^ 16 := addr.isLt
  have reads := (bigEndian_reads fits).map (BitVec.ofNat 128)
  rw [BitVec.ofNat_toNat, BitVec.setWidth_eq] at reads
  exact ip_eq_reverse addr ▸ reads

end NetAddr

namespace CService

def serialize (service : CService) : Bytes :=
  NetAddr.ip service.addr ++ (littleEndian 2 service.port.toNat).reverse

def unserialize : Reader CService := do
  let addr ← NetAddr.unserialize
  let portN ← Reader.bigEndian 2
  return ⟨addr, UInt16.ofNat portN⟩

theorem reads (service : CService) : Reads unserialize service.serialize service := by
  have fits : service.port.toNat < 256 ^ 2 := service.port.toNat_lt
  refine (NetAddr.reads service.addr).bind ?_
  simpa using (bigEndian_reads fits).map fun portN => (⟨service.addr, UInt16.ofNat portN⟩ : CService)

end CService

namespace CAddress

/-- An address on disk. The version of the address manager, which is 0, hides that of the file. -/
def serialize (addr : CAddress) : Bytes :=
  writeInt 4 0 ++ littleEndian 4 addr.nTime.toNat ++ littleEndian 8 addr.nServices.toNat ++ addr.service.serialize

def unserialize : Reader CAddress := do
  let _ ← readInt 4
  let nTime ← Reader.littleEndian 4
  let nServices ← Reader.littleEndian 8
  let service ← CService.unserialize
  return ⟨service, UInt64.ofNat nServices, UInt32.ofNat nTime⟩

theorem reads (addr : CAddress) : Reads unserialize addr.serialize addr := by
  have nVersion : FitsInt 4 0 := ⟨by decide, by decide⟩
  have nTime := Reads.littleEndian 4 addr.nTime.toNat (by simpa using addr.nTime.toNat_lt)
  have nServices := Reads.littleEndian 8 addr.nServices.toNat (by simpa using addr.nServices.toNat_lt)
  rw [serialize, List.append_assoc, List.append_assoc]
  refine (readInt_reads nVersion).bind ?_
  refine nTime.bind ?_
  refine nServices.bind ?_
  simpa using addr.service.reads.map fun service =>
    (⟨service, UInt64.ofNat addr.nServices.toNat, UInt32.ofNat addr.nTime.toNat⟩ : CAddress)

end CAddress

namespace CAddrInfo

def serialize (info : CAddrInfo) : Bytes :=
  info.toCAddress.serialize ++ NetAddr.ip info.source ++ writeInt 8 info.nLastSuccess ++ writeInt 4 info.nAttempts

/-- The caller sets `nRandomPos`. -/
def unserialize : Reader CAddrInfo := do
  let addr ← CAddress.unserialize
  let source ← NetAddr.unserialize
  let nLastSuccess ← readInt 8
  let nAttempts ← readInt 4
  return ⟨addr, 0, source, nLastSuccess, nAttempts, 0, false, 0⟩

/-- What is left of an entry in the file. -/
def onDisk (info : CAddrInfo) : CAddrInfo :=
  { info with nLastTry := 0, nRefCount := 0, fInTried := false, nRandomPos := 0 }

/-- The values are those of their types. -/
structure Storable (info : CAddrInfo) : Prop where
  nLastSuccess : FitsInt 8 info.nLastSuccess
  nAttempts : FitsInt 4 info.nAttempts

theorem reads {info : CAddrInfo} (storable : info.Storable) : Reads unserialize info.serialize info.onDisk := by
  rw [serialize, List.append_assoc, List.append_assoc]
  refine info.toCAddress.reads.bind ?_
  refine (NetAddr.reads info.source).bind ?_
  refine (readInt_reads storable.nLastSuccess).bind ?_
  exact (readInt_reads storable.nAttempts).map fun nAttempts =>
    (⟨info.toCAddress, 0, info.source, info.nLastSuccess, nAttempts, 0, false, 0⟩ : CAddrInfo)

end CAddrInfo

namespace CAddrMan

/-! ## The writer -/

/-- The first loop over mapInfo, from the number `nIds` on: the entries that are written, and mapUnkIds. -/
def numberNew (nNew : Int) : Int → Std.ExtTreeMap Int Int → List (Int × CAddrInfo) →
    List CAddrInfo × Std.ExtTreeMap Int Int
  | _, mapUnkIds, [] => ([], mapUnkIds)
  | nIds, mapUnkIds, (nId, info) :: rest =>
      if nIds = nNew then ([], mapUnkIds)
      else
        let mapUnkIds := mapUnkIds.insert nId nIds
        if info.nRefCount ≠ 0 then
          let (written, mapUnkIds) := numberNew nNew (nIds + 1) mapUnkIds rest
          (info :: written, mapUnkIds)
        else numberNew nNew nIds mapUnkIds rest

/-- The second loop over mapInfo. -/
def listTried (nTried : Int) : Int → List (Int × CAddrInfo) → List CAddrInfo
  | _, [] => []
  | nIds, (_, info) :: rest =>
      if nIds = nTried then []
      else if info.fInTried then info :: listTried nTried (nIds + 1) rest
      else listTried nTried nIds rest

def writeBucket (mapUnkIds : Std.ExtTreeMap Int Int) (vNew : List Int) : Bytes :=
  writeInt 4 vNew.length ++ vNew.flatMap fun nId => writeInt 4 (mapUnkIds[nId]?.getD 0)

def serialize (s : CAddrMan) : Bytes :=
  let (written, mapUnkIds) := numberNew s.nNew 0 ∅ s.mapInfo.toList
  [0] ++ (CAddrInfo.writeVch s.nKey ++ (writeInt 4 s.nNew ++ (writeInt 4 s.nTried ++
    (writeInt 4 ADDRMAN_NEW_BUCKET_COUNT ++ (written.flatMap CAddrInfo.serialize ++
      ((listTried s.nTried 0 s.mapInfo.toList).flatMap CAddrInfo.serialize ++
        (List.finRange ADDRMAN_NEW_BUCKET_COUNT).flatMap fun b =>
          writeBucket mapUnkIds ((s.vvNew b).sort (· ≤ ·))))))))

/-! ## The reader -/

/-- An entry that was read takes its places in the indexes. -/
def enter (s : CAddrMan) (nId : Int) (info : CAddrInfo) : CAddrMan :=
  { s with
    mapInfo := s.mapInfo.insert nId { info with nRandomPos := s.vRandom.length }
    mapAddr := s.mapAddr.insert info.service.addr nId
    vRandom := s.vRandom ++ [nId] }

def enterBucket (s : CAddrMan) (b : Fin ADDRMAN_NEW_BUCKET_COUNT) (nIndex : Int) (info : CAddrInfo) : CAddrMan :=
  { s.setInfo nIndex { info with nRefCount := info.nRefCount + 1 } with
    vvNew := Function.update s.vvNew b (insert nIndex (s.vvNew b)) }

section

variable [Hashing]

/-- The loop over the new entries, from the number `n` on. -/
def loadNew (nUBuckets : Int) : Int → List CAddrInfo → CAddrMan → CAddrMan
  | _, [], s => s
  | n, info :: rest, s =>
      let s := s.enter n info
      if nUBuckets ≠ ADDRMAN_NEW_BUCKET_COUNT then
        let b := info.getNewBucket s.nKey info.source
        loadNew nUBuckets (n + 1) rest (s.enterBucket b n { info with nRandomPos := s.vRandom.length - 1 })
      else loadNew nUBuckets (n + 1) rest s

def enterTried (s : CAddrMan) (info : CAddrInfo) : CAddrMan :=
  let nKBucket := info.getTriedBucket s.nKey
  { s.enter s.nIdCount { info with fInTried := true } with
    vvTried := Function.update s.vvTried nKBucket (s.vvTried nKBucket ++ [s.nIdCount])
    nIdCount := s.nIdCount + 1 }

/-- The loop over the tried entries, which also counts those that are lost. -/
def loadTried : List CAddrInfo → Int → CAddrMan → CAddrMan × Int
  | [], nLost, s => (s, nLost)
  | info :: rest, nLost, s =>
      if (s.vvTried (info.getTriedBucket s.nKey)).length < ADDRMAN_TRIED_BUCKET_SIZE then
        loadTried rest nLost (s.enterTried info)
      else loadTried rest (nLost + 1) s

end

/-- An index in a bucket. The source makes an empty entry for one without an entry; such a file, which the
writer does not write, is refused here. -/
def loadIndex (nUBuckets : Int) (s : CAddrMan) (item : Fin ADDRMAN_NEW_BUCKET_COUNT × Int) : Option CAddrMan := do
  let (b, nIndex) := item
  let info ← s.mapInfo[nIndex]?
  if nUBuckets = ADDRMAN_NEW_BUCKET_COUNT ∧ info.nRefCount < ADDRMAN_NEW_BUCKETS_PER_ADDRESS then
    return s.enterBucket b nIndex info
  else return s

/-- The indices with the bucket in which they are. -/
def inBuckets (buckets : List (List Int)) : List (Fin ADDRMAN_NEW_BUCKET_COUNT × Int) :=
  ((List.finRange ADDRMAN_NEW_BUCKET_COUNT).zip buckets).flatMap fun bucket => bucket.2.map (bucket.1, ·)

def readBucket : Reader (List Int) := do
  let nSize ← readInt 4
  Reader.repeated (readInt 4) nSize.toNat

variable [Hashing]

/-- The tables from the parts of the file; more buckets than there are have no place in `vvNew`. -/
def rebuild (nKey : Bytes) (nNew nTried nUBuckets : Int) (newInfos triedInfos : List CAddrInfo)
    (buckets : List (List Int)) : Option CAddrMan :=
  let s := loadNew nUBuckets 0 newInfos { empty nKey with nNew, nTried }
  let (s, nLost) := loadTried triedInfos 0 { s with nIdCount := nNew }
  let s := { s with nTried := s.nTried - nLost }
  if ADDRMAN_NEW_BUCKET_COUNT < nUBuckets then none
  else (inBuckets buckets).foldlM (loadIndex nUBuckets) s

def unserialize : Reader CAddrMan := do
  let _ ← Reader.byte
  let nKey ← readBytes
  let nNew ← readInt 4
  let nTried ← readInt 4
  let nUBuckets ← readInt 4
  let newInfos ← Reader.repeated CAddrInfo.unserialize nNew.toNat
  let triedInfos ← Reader.repeated CAddrInfo.unserialize nTried.toNat
  let buckets ← Reader.repeated readBucket nUBuckets.toNat
  rebuild nKey nNew nTried nUBuckets newInfos triedInfos buckets

end CAddrMan

end BitCrystal
