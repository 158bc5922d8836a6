import BitCrystal.BlockSerialize
import BitCrystal.Data.Tables
import BitCrystal.HostPort

namespace BitCrystal.WalletFile

open Data

/-! # The records of wallet transactions and accounting entries

Some fields are stored under keys of mapValue, and the mapValue of an accounting entry
behind a NUL in its comment. -/

/-! ## Maps of strings -/

/-- mapValue_t, a map of std::string -/
abbrev MapValue := Std.ExtTreeMap Bytes Bytes

def writeString (str : Bytes) : Bytes := writeCompactSize str.length ++ str

def writePair (pair : Bytes × Bytes) : Bytes := writeString pair.1 ++ writeString pair.2

def readPair : Reader (Bytes × Bytes) := do
  let first ← readBytes
  let second ← readBytes
  return (first, second)

def writeMap (mapValue : MapValue) : Bytes := writeVector writePair mapValue.toList

/-- `m.insert(mi, item)` -/
def insertItem (mapValue : MapValue) (item : Bytes × Bytes) : MapValue := mapValue.insertIfNew item.1 item.2

def readMap : Reader MapValue := do
  let items ← readVector readPair
  return items.foldl insertItem ∅

/-! ## Numbers as text -/

def decimalText (n : Int) : List Char := if n < 0 then '-' :: Nat.toDigits 10 n.natAbs else Nat.toDigits 10 n.natAbs

def i64tostr (n : Int64) : Bytes := bytesOf (decimalText n.toInt)

def atoi64 (str : Bytes) : Int64 := Int64.ofInt (strtol (cString (charsOf str))).1

/-! ## Order positions -/

def readOrderPos (mapValue : MapValue) : Int64 :=
  match mapValue[ascii "n"]? with
  | none => -1
  | some text => atoi64 text

def writeOrderPos (nOrderPos : Int64) (mapValue : MapValue) : MapValue :=
  if nOrderPos = -1 then mapValue else mapValue.insert (ascii "n") (i64tostr nOrderPos)

/-! ## Wallet transactions -/

structure CMerkleTx extends CTransaction where
  hashBlock : UInt256
  vMerkleBranch : List UInt256
  nIndex : Int32

namespace CMerkleTx

def serialize (tx : CMerkleTx) : Bytes :=
  tx.toCTransaction.serialize ++ (littleEndian 32 tx.hashBlock.toNat ++
    (writeVector (fun hash : UInt256 => littleEndian 32 hash.toNat) tx.vMerkleBranch ++
      littleEndian 4 tx.nIndex.toUInt32.toNat))

def readHash : Reader UInt256 := do
  let hash ← Reader.littleEndian 32
  return BitVec.ofNat 256 hash

def unserialize : Reader CMerkleTx := do
  let tx ← CTransaction.unserialize
  let hashBlock ← readHash
  let vMerkleBranch ← readVector readHash
  let nIndex ← Reader.littleEndian 4
  return ⟨tx, hashBlock, vMerkleBranch, (UInt32.ofNat nIndex).toInt32⟩

end CMerkleTx

structure CWalletTx extends CMerkleTx where
  vtxPrev : List CMerkleTx
  mapValue : MapValue
  vOrderForm : List (Bytes × Bytes)
  fTimeReceivedIsTxTime : UInt32
  nTimeReceived : UInt32
  nTimeSmart : UInt32
  fFromMe : UInt8
  strFromAccount : Bytes
  vfSpent : List Bool
  nOrderPos : Int64

namespace CWalletTx

def erasedKeys : List Bytes := ["fromaccount", "version", "spent", "n", "timesmart"].map ascii

def eraseKeys (mapValue : MapValue) : MapValue := erasedKeys.foldl Std.ExtTreeMap.erase mapValue

/-- mapValue as it is written -/
def storedMapValue (wtx : CWalletTx) : MapValue :=
  let mapValue := wtx.mapValue.insert (ascii "fromaccount") wtx.strFromAccount
  let mapValue := mapValue.insert (ascii "spent") (bytesOf (wtx.vfSpent.map fun f => if f then '1' else '0'))
  let mapValue := writeOrderPos wtx.nOrderPos mapValue
  if wtx.nTimeSmart = 0 then mapValue
  else mapValue.insert (ascii "timesmart") (bytesOf (Nat.toDigits 10 wtx.nTimeSmart.toNat))

/-- What is written, and the object afterwards -/
def serialize (wtx : CWalletTx) : Bytes × CWalletTx :=
  let fSpent : UInt8 := if wtx.vfSpent.any id then 1 else 0
  let mapValue := wtx.storedMapValue
  (wtx.toCMerkleTx.serialize ++ (writeVector CMerkleTx.serialize wtx.vtxPrev ++ (writeMap mapValue ++
      (writeVector writePair wtx.vOrderForm ++ (littleEndian 4 wtx.fTimeReceivedIsTxTime.toNat ++
        (littleEndian 4 wtx.nTimeReceived.toNat ++ ([wtx.fFromMe] ++ [fSpent])))))),
    { wtx with mapValue := eraseKeys mapValue })

def spentFlags (mapValue : MapValue) (fSpent : UInt8) (vout : List CTxOut) : List Bool :=
  match mapValue[ascii "spent"]? with
  | some text => (charsOf text).map (· ≠ '0')
  | none => List.replicate vout.length (decide (fSpent ≠ 0))

def readTimeSmart (mapValue : MapValue) : UInt32 :=
  match mapValue[ascii "timesmart"]? with
  | some text => UInt32.ofInt (atoi64 text).toInt
  | none => 0

def unserialize : Reader CWalletTx := do
  let tx ← CMerkleTx.unserialize
  let vtxPrev ← readVector CMerkleTx.unserialize
  let mapValue ← readMap
  let vOrderForm ← readVector readPair
  let fTimeReceivedIsTxTime ← Reader.littleEndian 4
  let nTimeReceived ← Reader.littleEndian 4
  let fFromMe ← Reader.byte
  let fSpent ← Reader.byte
  return {
    toCMerkleTx := tx
    vtxPrev
    mapValue := eraseKeys mapValue
    vOrderForm
    fTimeReceivedIsTxTime := UInt32.ofNat fTimeReceivedIsTxTime
    nTimeReceived := UInt32.ofNat nTimeReceived
    nTimeSmart := readTimeSmart mapValue
    fFromMe
    strFromAccount := mapValue.getD (ascii "fromaccount") []
    vfSpent := spentFlags mapValue fSpent tx.vout
    nOrderPos := readOrderPos mapValue }

end CWalletTx

/-! ## Accounting entries -/

structure CAccountingEntry where
  strAccount : Bytes
  nCreditDebit : Int64
  nTime : Int64
  strOtherAccount : Bytes
  strComment : Bytes
  mapValue : MapValue
  nOrderPos : Int64
  nEntryNo : UInt64
  ssExtra : Bytes

namespace CAccountingEntry

/-- Where `find` meets a NUL, what is before it -/
def beforeNul (strComment : Bytes) : Bytes := strComment.takeWhile (· ≠ 0)

/-- Where `find` meets a NUL, what is behind it -/
def afterNul (strComment : Bytes) : Option Bytes := (strComment.dropWhile (· ≠ 0)).tail?

def storedComment (entry : CAccountingEntry) : Bytes :=
  let mapValue := writeOrderPos entry.nOrderPos entry.mapValue
  if mapValue.isEmpty ∧ entry.ssExtra = [] then entry.strComment
  else entry.strComment ++ 0 :: (writeMap mapValue ++ entry.ssExtra)

/-- What is written, and the object afterwards -/
def serialize (nVersion : Int32) (entry : CAccountingEntry) : Bytes × CAccountingEntry :=
  let strComment := entry.storedComment
  (littleEndian 4 nVersion.toUInt32.toNat ++ (littleEndian 8 entry.nCreditDebit.toUInt64.toNat ++
      (littleEndian 8 entry.nTime.toUInt64.toNat ++ (writeString entry.strOtherAccount ++ writeString strComment))),
    { entry with
      strComment := beforeNul strComment
      mapValue := (writeOrderPos entry.nOrderPos entry.mapValue).erase (ascii "n") })

/-- mapValue and `_ssExtra` as they are read from a comment -/
def readExtra (ssExtra strComment : Bytes) : Option (MapValue × Bytes) :=
  match afterNul strComment with
  | none => some (∅, ssExtra)
  | some ss => readMap ss

/-- Reading into an object -/
def unserialize (me : CAccountingEntry) : Reader CAccountingEntry := do
  let _nVersion ← Reader.littleEndian 4
  let nCreditDebit ← Reader.littleEndian 8
  let nTime ← Reader.littleEndian 8
  let strOtherAccount ← readBytes
  let strComment ← readBytes
  match readExtra me.ssExtra strComment with
  | none => Reader.fail
  | some (mapValue, ssExtra) =>
      return { me with
        nCreditDebit := (UInt64.ofNat nCreditDebit).toInt64
        nTime := (UInt64.ofNat nTime).toInt64
        strOtherAccount
        strComment := beforeNul strComment
        mapValue := mapValue.erase (ascii "n")
        nOrderPos := readOrderPos mapValue
        ssExtra }

/-- `CAccountingEntry()` with some key -/
def blank (strAccount : Bytes) (nEntryNo : UInt64) : CAccountingEntry where
  strAccount
  nCreditDebit := 0
  nTime := 0
  strOtherAccount := []
  strComment := []
  mapValue := ∅
  nOrderPos := -1
  nEntryNo
  ssExtra := []

/-- `make_tuple(string("acentry"), strAccount, nAccEntryNum)` -/
def recordKey (nAccEntryNum : UInt64) (entry : CAccountingEntry) : Bytes :=
  writeString (ascii "acentry") ++ (writeString entry.strAccount ++ littleEndian 8 nAccEntryNum.toNat)

/-- How ListAccountCreditDebit reads a record -/
def readRecord (ssKey ssValue : Bytes) : Option CAccountingEntry := do
  let (strType, ssKey) ← readBytes ssKey
  if strType ≠ ascii "acentry" then none
  let (strAccount, ssKey) ← readBytes ssKey
  let (acentry, _) ← (blank strAccount 0).unserialize ssValue
  let (nEntryNo, _) ← Reader.littleEndian 8 ssKey
  return { acentry with nEntryNo := UInt64.ofNat nEntryNo }

end CAccountingEntry

/-! ## Maps come back -/

/-- Sizes that ReadCompactSize lets through -/
abbrev PairSized (pair : Bytes × Bytes) : Prop := pair.1.length ≤ MAX_SIZE ∧ pair.2.length ≤ MAX_SIZE

structure MapSized (mapValue : MapValue) : Prop where
  count : mapValue.toList.length ≤ MAX_SIZE
  pairs : ∀ pair ∈ mapValue.toList, PairSized pair

theorem readPair_reads {pair : Bytes × Bytes} (sized : PairSized pair) : Reads readPair (writePair pair) pair :=
  (readBytes_reads sized.1).bind ((readBytes_reads sized.2).map fun second => (pair.1, second))

theorem readPairs_reads {pairs : List (Bytes × Bytes)} (count : pairs.length ≤ MAX_SIZE)
    (each : ∀ pair ∈ pairs, PairSized pair) : Reads (readVector readPair) (writeVector writePair pairs) pairs := by
  have all : Reads _ _ (pairs.map id) := readVector_reads pairs count fun pair member => readPair_reads (each pair member)
  rwa [List.map_id] at all

theorem getElem?_foldl_insertItem {items : List (Bytes × Bytes)} {mapValue : MapValue} (distinct : (items.map Prod.fst).Nodup)
    (fresh : ∀ item ∈ items, mapValue[item.1]? = none) (key value : Bytes) :
    (items.foldl insertItem mapValue)[key]? = some value ↔ (key, value) ∈ items ∨ mapValue[key]? = some value := by
  induction items generalizing mapValue with
  | nil => simp
  | cons item items ih =>
      rw [List.map_cons, List.nodup_cons] at distinct
      have first : mapValue[item.1]? = none := fresh item List.mem_cons_self
      have inserted (other : Bytes) : (insertItem mapValue item)[other]? =
          if other = item.1 then some item.2 else mapValue[other]? := by
        rw [insertItem, lookup_insertIfNew]
        simp only [first, and_true]
      have later : ∀ next ∈ items, (insertItem mapValue item)[next.1]? = none := by
        intro next member
        have different : next.1 ≠ item.1 := fun same => distinct.1 (same ▸ List.mem_map_of_mem member)
        rw [inserted, if_neg different]
        exact fresh next (List.mem_cons_of_mem item member)
      rw [List.foldl_cons, ih distinct.2 later, inserted, List.mem_cons]
      by_cases own : key = item.1
      · subst own
        have absent : (item.1, value) ∉ items := fun member =>
          distinct.1 (List.mem_map.mpr ⟨_, member, rfl⟩)
        rw [if_pos rfl, first]
        simp [absent, Prod.ext_iff, eq_comm]
      · rw [if_neg own]
        simp [Prod.ext_iff, own]

theorem foldl_insertItem_toList (mapValue : MapValue) : mapValue.toList.foldl insertItem ∅ = mapValue := by
  apply Std.ExtTreeMap.ext_getElem?
  intro key
  apply Option.ext
  intro value
  have empty : ∀ item ∈ mapValue.toList, (∅ : MapValue)[item.1]? = none := fun _ _ => Std.ExtTreeMap.getElem?_empty
  rw [getElem?_foldl_insertItem (toList_keys_nodup mapValue) empty, Std.ExtTreeMap.mem_toList_iff_getElem?_eq_some]
  simp

theorem readMap_reads {mapValue : MapValue} (sized : MapSized mapValue) : Reads readMap (writeMap mapValue) mapValue := by
  have items := (readPairs_reads sized.count sized.pairs).map fun items => items.foldl insertItem ∅
  rwa [foldl_insertItem_toList] at items

/-! ## Numbers come back -/

theorem charsOf_bytesOf {text : List Char} (small : ∀ c ∈ text, c.toNat < 256) : charsOf (bytesOf text) = text := by
  rw [charsOf, bytesOf, List.map_map]
  refine (List.map_congr_left fun c member => ?_).trans (List.map_id text)
  have value : (UInt8.ofNat c.toNat).toNat = c.toNat := by
    rw [UInt8.toNat_ofNat']
    exact Nat.mod_eq_of_lt (small c member)
  rw [Function.comp_apply, value, Char.ofNat_toNat, id]

theorem decimalText_chars {n : Int} : ∀ c ∈ decimalText n, c = '-' ∨ c.isDigit = true := by
  have digits : ∀ c ∈ Nat.toDigits 10 n.natAbs, c.isDigit = true :=
    fun c member => Nat.isDigit_of_mem_toDigits (by decide) (by decide) member
  intro c member
  rw [decimalText] at member
  split at member
  · rcases List.mem_cons.mp member with minus | digit
    · exact .inl minus
    · exact .inr (digits c digit)
  · exact .inr (digits c member)

theorem decimal_decimalText (n : Int) : Decimal (decimalText n) n := by
  have digits : ∀ c ∈ Nat.toDigits 10 n.natAbs, c.isDigit = true :=
    fun c member => Nat.isDigit_of_mem_toDigits (by decide) (by decide) member
  rw [decimalText]
  split
  case isTrue negative =>
    refine ⟨[], ['-'], Nat.toDigits 10 n.natAbs, rfl, List.forall_mem_nil _, digits, Nat.toDigits_ne_nil, .inl ⟨rfl, ?_⟩⟩
    rw [Nat.ofDigitChars_ten_toDigits]
    omega
  case isFalse nonneg =>
    refine ⟨[], [], Nat.toDigits 10 n.natAbs, rfl, List.forall_mem_nil _, digits, Nat.toDigits_ne_nil, .inr ⟨.inl rfl, ?_⟩⟩
    rw [Nat.ofDigitChars_ten_toDigits]
    omega

theorem strtol_decimalText {n : Int} (low : -2 ^ 63 ≤ n) (high : n < 2 ^ 63) :
    (strtol (cString (charsOf (bytesOf (decimalText n))))).1 = n := by
  have chars := @decimalText_chars n
  have small : ∀ c ∈ decimalText n, c.toNat < 256 := by
    intro c member
    rcases chars c member with rfl | digit
    · decide
    · exact (Char.isDigit_iff_toNat.mp digit).2.trans_lt (by decide)
  have whole : cString (decimalText n) = decimalText n := by
    apply List.takeWhile_eq_self_iff.mpr
    intro c member
    rcases chars c member with rfl | digit
    · decide
    · rw [decide_eq_true_eq]
      rintro rfl
      cases digit
  rw [charsOf_bytesOf small, whole, strtol, scanDecimal_iff.mpr (decimal_decimalText n)]
  dsimp only
  omega

theorem atoi64_i64tostr (n : Int64) : atoi64 (i64tostr n) = n := by
  have low := n.le_toInt
  have high := n.toInt_lt
  rw [atoi64, i64tostr, strtol_decimalText low high, Int64.ofInt_toInt]

/-! ## Order positions come back -/

theorem getElem?_writeOrderPos (nOrderPos : Int64) (mapValue : MapValue) (key : Bytes) :
    (writeOrderPos nOrderPos mapValue)[key]? =
      if nOrderPos ≠ -1 ∧ key = ascii "n" then some (i64tostr nOrderPos) else mapValue[key]? := by
  unfold writeOrderPos
  by_cases none : nOrderPos = -1
  · rw [if_pos none, if_neg fun both => both.1 none]
  · rw [if_neg none, lookup_insert]
    simp only [ne_eq, none, not_false_eq_true, true_and]

theorem readOrderPos_eq {nOrderPos : Int64} {mapValue : MapValue}
    (same : mapValue[ascii "n"]? = if nOrderPos ≠ -1 then some (i64tostr nOrderPos) else none) :
    readOrderPos mapValue = nOrderPos := by
  rw [readOrderPos, same]
  by_cases none : nOrderPos = -1
  · rw [if_neg fun some => some none]
    exact none.symm
  · rw [if_pos none]
    exact atoi64_i64tostr nOrderPos

/-! ## Wallet transactions come back -/

namespace CMerkleTx

/-- The transaction has no more than it writes, and its vectors and strings have sizes that
ReadCompactSize lets through. -/
structure Sized (tx : CMerkleTx) : Prop where
  sizes : tx.toCTransaction.Sized
  uncommented : tx.toCTransaction.Uncommented
  vMerkleBranch : tx.vMerkleBranch.length ≤ MAX_SIZE

theorem readHash_reads (hash : UInt256) : Reads readHash (littleEndian 32 hash.toNat) hash := by
  have value := Reads.littleEndian 32 hash.toNat (by simpa using hash.isLt)
  have hashes := value.map fun value => BitVec.ofNat 256 value
  rwa [BitVec.ofNat_toNat, BitVec.setWidth_eq] at hashes

theorem Sized.reads {tx : CMerkleTx} (sized : tx.Sized) : Reads unserialize tx.serialize tx := by
  have branch : Reads _ _ (tx.vMerkleBranch.map id) := readVector_reads tx.vMerkleBranch sized.vMerkleBranch
    fun hash _ => readHash_reads hash
  rw [List.map_id] at branch
  have nIndex := Reads.littleEndian 4 tx.nIndex.toUInt32.toNat (by simpa using tx.nIndex.toUInt32.toNat_lt)
  refine (CTransaction.reads_iff.mpr ⟨sized.sizes, sized.uncommented⟩).bind ?_
  refine (readHash_reads tx.hashBlock).bind ?_
  refine branch.bind ?_
  simpa using nIndex.map fun nIndex =>
    (⟨tx.toCTransaction, tx.hashBlock, tx.vMerkleBranch, (UInt32.ofNat nIndex).toInt32⟩ : CMerkleTx)

end CMerkleTx

namespace CWalletTx

abbrev Unreserved (mapValue : MapValue) : Prop := ∀ key ∈ erasedKeys, mapValue[key]? = none

theorem getElem?_eraseKeys (mapValue : MapValue) (key : Bytes) :
    (eraseKeys mapValue)[key]? = if key ∈ erasedKeys then none else mapValue[key]? := by
  simp only [eraseKeys, erasedKeys, List.map_cons, List.map_nil, List.foldl_cons, List.foldl_nil, lookup_erase,
    List.mem_cons, List.not_mem_nil, or_false]
  split_ifs <;> simp_all

variable {wtx : CWalletTx}

theorem getElem?_storedMapValue (wtx : CWalletTx) (key : Bytes) : wtx.storedMapValue[key]? =
    if wtx.nTimeSmart ≠ 0 ∧ key = ascii "timesmart" then some (bytesOf (Nat.toDigits 10 wtx.nTimeSmart.toNat))
    else if wtx.nOrderPos ≠ -1 ∧ key = ascii "n" then some (i64tostr wtx.nOrderPos)
    else if key = ascii "spent" then some (bytesOf (wtx.vfSpent.map fun f => if f then '1' else '0'))
    else if key = ascii "fromaccount" then some wtx.strFromAccount
    else wtx.mapValue[key]? := by
  unfold storedMapValue
  by_cases unset : wtx.nTimeSmart = 0
  · rw [if_pos unset, if_neg fun both => both.1 unset, getElem?_writeOrderPos, lookup_insert, lookup_insert]
  · rw [if_neg unset, lookup_insert, getElem?_writeOrderPos, lookup_insert, lookup_insert]
    simp only [ne_eq, unset, not_false_eq_true, true_and]

theorem eraseKeys_storedMapValue (unreserved : Unreserved wtx.mapValue) : eraseKeys wtx.storedMapValue = wtx.mapValue := by
  apply Std.ExtTreeMap.ext_getElem?
  intro key
  rw [getElem?_eraseKeys]
  split
  case isTrue erased => exact (unreserved key erased).symm
  case isFalse kept =>
    simp only [erasedKeys, List.map_cons, List.map_nil, List.mem_cons, List.not_mem_nil, or_false, not_or] at kept
    rw [getElem?_storedMapValue, if_neg fun both => kept.2.2.2.2 both.2, if_neg fun both => kept.2.2.2.1 both.2,
      if_neg kept.2.2.1, if_neg kept.1]

theorem serialize_snd (unreserved : Unreserved wtx.mapValue) : wtx.serialize.2 = wtx := by
  rw [serialize, eraseKeys_storedMapValue unreserved]

theorem readTimeSmart_storedMapValue (unreserved : Unreserved wtx.mapValue) :
    readTimeSmart wtx.storedMapValue = wtx.nTimeSmart := by
  rw [readTimeSmart, getElem?_storedMapValue]
  by_cases unset : wtx.nTimeSmart = 0
  · rw [if_neg fun both => both.1 unset, if_neg fun both => absurd both.2 (by decide), if_neg (by decide),
      if_neg (by decide), unreserved (ascii "timesmart") (by decide)]
    exact unset.symm
  · rw [if_pos ⟨unset, rfl⟩]
    have text : Nat.toDigits 10 wtx.nTimeSmart.toNat = decimalText wtx.nTimeSmart.toNat := by
      rw [decimalText, if_neg (by omega), Int.natAbs_natCast]
    have bound := wtx.nTimeSmart.toNat_lt
    have value : (Int64.ofInt wtx.nTimeSmart.toNat).toInt = wtx.nTimeSmart.toNat :=
      Int64.toInt_ofInt_of_le (by omega) (by omega)
    change UInt32.ofInt (atoi64 _).toInt = _
    have whole : ((wtx.nTimeSmart.toNat : Int) % 2 ^ 32).toNat = wtx.nTimeSmart.toNat := by omega
    rw [text, atoi64, strtol_decimalText (by omega) (by omega), value, UInt32.ofInt, whole, UInt32.ofNat_toNat]

theorem readOrderPos_storedMapValue (unreserved : Unreserved wtx.mapValue) :
    readOrderPos wtx.storedMapValue = wtx.nOrderPos := by
  apply readOrderPos_eq
  rw [getElem?_storedMapValue, if_neg fun both => absurd both.2 (by decide)]
  by_cases none : wtx.nOrderPos = -1
  · rw [if_neg fun both => both.1 none, if_neg (by decide), if_neg (by decide), unreserved (ascii "n") (by decide),
      if_neg fun some => some none]
  · rw [if_pos ⟨none, rfl⟩, if_pos none]

theorem spentFlags_storedMapValue (wtx : CWalletTx) (fSpent : UInt8) :
    spentFlags wtx.storedMapValue fSpent wtx.vout = wtx.vfSpent := by
  have text : wtx.storedMapValue[ascii "spent"]? = some (bytesOf (wtx.vfSpent.map fun f => if f then '1' else '0')) := by
    rw [getElem?_storedMapValue, if_neg fun both => absurd both.2 (by decide),
      if_neg fun both => absurd both.2 (by decide), if_pos rfl]
  have small : ∀ c ∈ wtx.vfSpent.map fun f => if f then '1' else '0', c.toNat < 256 := by
    intro c member
    obtain ⟨f, _, rfl⟩ := List.mem_map.mp member
    cases f <;> decide
  rw [spentFlags, text]
  dsimp only
  rw [charsOf_bytesOf small, List.map_map]
  refine (List.map_congr_left fun f _ => ?_).trans (List.map_id _)
  cases f <;> rfl

theorem strFromAccount_storedMapValue (wtx : CWalletTx) :
    wtx.storedMapValue.getD (ascii "fromaccount") [] = wtx.strFromAccount := by
  rw [Std.ExtTreeMap.getD_eq_getD_getElem?, getElem?_storedMapValue, if_neg fun both => absurd both.2 (by decide),
    if_neg fun both => absurd both.2 (by decide), if_neg (by decide), if_pos rfl, Option.getD_some]

/-- The vectors, maps and strings that are written have sizes that ReadCompactSize lets through. -/
structure Sized (wtx : CWalletTx) : Prop where
  tx : wtx.toCMerkleTx.Sized
  vtxPrev : wtx.vtxPrev.length ≤ MAX_SIZE
  prevs : ∀ prev ∈ wtx.vtxPrev, prev.Sized
  mapValue : MapSized wtx.storedMapValue
  vOrderForm : wtx.vOrderForm.length ≤ MAX_SIZE
  forms : ∀ pair ∈ wtx.vOrderForm, PairSized pair

theorem Sized.reads (sized : wtx.Sized) (unreserved : Unreserved wtx.mapValue) :
    Reads unserialize wtx.serialize.1 wtx := by
  have prevs : Reads _ _ (wtx.vtxPrev.map id) := readVector_reads wtx.vtxPrev sized.vtxPrev
    fun prev member => (sized.prevs prev member).reads
  rw [List.map_id] at prevs
  have flag := Reads.littleEndian 4 wtx.fTimeReceivedIsTxTime.toNat (by simpa using wtx.fTimeReceivedIsTxTime.toNat_lt)
  have received := Reads.littleEndian 4 wtx.nTimeReceived.toNat (by simpa using wtx.nTimeReceived.toNat_lt)
  refine sized.tx.reads.bind ?_
  refine prevs.bind ?_
  refine (readMap_reads sized.mapValue).bind ?_
  refine (readPairs_reads sized.vOrderForm sized.forms).bind ?_
  refine flag.bind ?_
  refine received.bind ?_
  refine (Reads.byte wtx.fFromMe).bind ?_
  refine (Reads.byte _).bind (m := []) ?_
  rw [eraseKeys_storedMapValue unreserved, UInt32.ofNat_toNat, UInt32.ofNat_toNat,
    readTimeSmart_storedMapValue unreserved, strFromAccount_storedMapValue, spentFlags_storedMapValue,
    readOrderPos_storedMapValue unreserved]
  exact Reads.pure wtx

end CWalletTx

/-! ## Accounting entries come back -/

theorem mapSized_of_length {mapValue : MapValue} (bounded : (writeMap mapValue).length ≤ MAX_SIZE) : MapSized mapValue := by
  have item (pair : Bytes × Bytes) : pair.1.length + pair.2.length + 2 ≤ (writePair pair).length := by
    have first := getSizeOfCompactSize_pos pair.1.length
    have second := getSizeOfCompactSize_pos pair.2.length
    simp only [writePair, writeString, List.length_append, writeCompactSize_length]
    omega
  have count := List.length_le_sum_of_one_le (mapValue.toList.map fun pair => (writePair pair).length) (by
    intro size member
    obtain ⟨pair, _, rfl⟩ := List.mem_map.mp member
    have size := item pair
    omega)
  rw [writeMap, writeVector, List.length_append, List.length_flatMap] at bounded
  rw [List.length_map] at count
  refine ⟨by omega, fun pair member => ?_⟩
  have part := List.le_sum_of_mem (List.mem_map_of_mem (f := fun pair => (writePair pair).length) member)
  have size := item pair
  exact ⟨by omega, by omega⟩

namespace CAccountingEntry

variable {entry : CAccountingEntry}

theorem all_nonzero {strComment : Bytes} (free : 0 ∉ strComment) : ∀ c ∈ strComment, decide (c ≠ 0) = true := by
  intro c member
  rw [decide_eq_true_eq]
  rintro rfl
  exact free member

theorem beforeNul_append {strComment : Bytes} (free : 0 ∉ strComment) (rest : Bytes) :
    beforeNul (strComment ++ 0 :: rest) = strComment := by
  rw [beforeNul, List.takeWhile_append_of_pos (all_nonzero free)]
  exact List.append_nil strComment

theorem afterNul_append {strComment : Bytes} (free : 0 ∉ strComment) (rest : Bytes) :
    afterNul (strComment ++ 0 :: rest) = some rest := by
  rw [afterNul, List.dropWhile_append_of_pos (all_nonzero free)]
  rfl

theorem beforeNul_self {strComment : Bytes} (free : 0 ∉ strComment) : beforeNul strComment = strComment :=
  List.takeWhile_eq_self_iff.mpr (all_nonzero free)

theorem afterNul_eq_none {strComment : Bytes} (free : 0 ∉ strComment) : afterNul strComment = none := by
  rw [afterNul, List.dropWhile_eq_nil_iff.mpr (all_nonzero free)]
  rfl

/-- Nothing is stored behind a NUL. -/
def Bare (entry : CAccountingEntry) : Prop :=
  (writeOrderPos entry.nOrderPos entry.mapValue).isEmpty = true ∧ entry.ssExtra = []

theorem storedComment_of_bare (bare : entry.Bare) : entry.storedComment = entry.strComment := if_pos bare

theorem storedComment_of_not_bare (extra : ¬ entry.Bare) : entry.storedComment =
    entry.strComment ++ 0 :: (writeMap (writeOrderPos entry.nOrderPos entry.mapValue) ++ entry.ssExtra) :=
  if_neg extra

theorem beforeNul_storedComment (free : 0 ∉ entry.strComment) : beforeNul entry.storedComment = entry.strComment := by
  by_cases bare : entry.Bare
  · rw [storedComment_of_bare bare, beforeNul_self free]
  · rw [storedComment_of_not_bare bare, beforeNul_append free]

theorem erase_writeOrderPos (unreserved : entry.mapValue[ascii "n"]? = none) :
    (writeOrderPos entry.nOrderPos entry.mapValue).erase (ascii "n") = entry.mapValue := by
  apply Std.ExtTreeMap.ext_getElem?
  intro key
  rw [lookup_erase, getElem?_writeOrderPos]
  by_cases own : key = ascii "n"
  · rw [if_pos own, own, unreserved]
  · rw [if_neg own, if_neg fun both => own both.2]

theorem serialize_snd (nVersion : Int32) (unreserved : entry.mapValue[ascii "n"]? = none) (free : 0 ∉ entry.strComment) :
    (entry.serialize nVersion).2 = entry := by
  rw [serialize, beforeNul_storedComment free, erase_writeOrderPos unreserved]

/-- The strings that are written have sizes that ReadCompactSize lets through. -/
structure Sized (entry : CAccountingEntry) : Prop where
  strOtherAccount : entry.strOtherAccount.length ≤ MAX_SIZE
  storedComment : entry.storedComment.length ≤ MAX_SIZE

theorem Sized.readExtra (sized : entry.Sized) (free : 0 ∉ entry.strComment) :
    CAccountingEntry.readExtra [] entry.storedComment =
      some (writeOrderPos entry.nOrderPos entry.mapValue, entry.ssExtra) := by
  have bounded := sized.storedComment
  rw [CAccountingEntry.readExtra]
  by_cases bare : entry.Bare
  · rw [storedComment_of_bare bare, afterNul_eq_none free, Std.ExtTreeMap.isEmpty_iff.mp bare.1, bare.2]
  · rw [storedComment_of_not_bare bare] at bounded ⊢
    rw [List.length_append, List.length_cons, List.length_append] at bounded
    rw [afterNul_append free]
    exact readMap_reads (mapSized_of_length (by omega)) entry.ssExtra

theorem Sized.reads (sized : entry.Sized) (nVersion : Int32) (unreserved : entry.mapValue[ascii "n"]? = none)
    (free : 0 ∉ entry.strComment) (nEntryNo : UInt64) :
    Reads (blank entry.strAccount nEntryNo).unserialize (entry.serialize nVersion).1 { entry with nEntryNo } := by
  have version := Reads.littleEndian 4 nVersion.toUInt32.toNat (by simpa using nVersion.toUInt32.toNat_lt)
  have amount := Reads.littleEndian 8 entry.nCreditDebit.toUInt64.toNat
    (by simpa using entry.nCreditDebit.toUInt64.toNat_lt)
  have time := Reads.littleEndian 8 entry.nTime.toUInt64.toNat (by simpa using entry.nTime.toUInt64.toNat_lt)
  have position : readOrderPos (writeOrderPos entry.nOrderPos entry.mapValue) = entry.nOrderPos := by
    apply readOrderPos_eq
    rw [getElem?_writeOrderPos, unreserved]
    simp only [and_true]
  refine version.bind ?_
  refine amount.bind ?_
  refine time.bind ?_
  refine (readBytes_reads sized.strOtherAccount).bind ?_
  rw [← List.append_nil (writeString entry.storedComment)]
  refine (readBytes_reads sized.storedComment).bind ?_
  change Reads (match CAccountingEntry.readExtra [] entry.storedComment with
    | none => Reader.fail
    | some (mapValue, ssExtra) => _) [] _
  rw [sized.readExtra free]
  dsimp only
  rw [UInt64.ofNat_toNat, UInt64.ofNat_toNat, beforeNul_storedComment free, erase_writeOrderPos unreserved, position]
  exact Reads.pure _

theorem Sized.readRecord (sized : entry.Sized) (account : entry.strAccount.length ≤ MAX_SIZE) (nVersion : Int32)
    (unreserved : entry.mapValue[ascii "n"]? = none) (free : 0 ∉ entry.strComment) (nAccEntryNum : UInt64) :
    CAccountingEntry.readRecord (entry.recordKey nAccEntryNum) (entry.serialize nVersion).1 =
      some { entry with nEntryNo := nAccEntryNum } := by
  have strType := @readBytes_reads (ascii "acentry") (by decide)
  have value := (sized.reads nVersion unreserved free 0).whole
  have number := (Reads.littleEndian 8 nAccEntryNum.toNat (by simpa using nAccEntryNum.toNat_lt)).whole
  rw [CAccountingEntry.readRecord, recordKey, writeString, strType]
  simp only [Option.bind_eq_bind, Option.bind_some, ne_eq, not_true_eq_false, if_false]
  rw [writeString, readBytes_reads account]
  simp only [Option.bind_some]
  rw [value]
  simp only [Option.bind_some]
  rw [number]
  simp only [Option.bind_some, UInt64.ofNat_toNat, Option.pure_def]

end CAccountingEntry

/-! ## The records together -/

/-- Serializing leaves an object as it was, and what is written is read back. -/
theorem wallet_records_round_trip :
    (∀ wtx : CWalletTx, CWalletTx.Unreserved wtx.mapValue →
      wtx.serialize.2 = wtx ∧ (wtx.Sized → Reads CWalletTx.unserialize wtx.serialize.1 wtx)) ∧
    ∀ (entry : CAccountingEntry) (nVersion : Int32) (nAccEntryNum : UInt64), entry.mapValue[ascii "n"]? = none →
      0 ∉ entry.strComment → (entry.serialize nVersion).2 = entry ∧ (entry.Sized →
        Reads (CAccountingEntry.blank entry.strAccount entry.nEntryNo).unserialize (entry.serialize nVersion).1 entry ∧
        (entry.strAccount.length ≤ MAX_SIZE →
          CAccountingEntry.readRecord (entry.recordKey nAccEntryNum) (entry.serialize nVersion).1 =
            some { entry with nEntryNo := nAccEntryNum })) := by
  constructor
  · intro wtx unreserved
    exact ⟨CWalletTx.serialize_snd unreserved, fun sized => sized.reads unreserved⟩
  · intro entry nVersion nAccEntryNum unreserved free
    refine ⟨CAccountingEntry.serialize_snd nVersion unreserved free, fun sized => ⟨?_, fun account => ?_⟩⟩
    · exact sized.reads nVersion unreserved free entry.nEntryNo
    · exact sized.readRecord account nVersion unreserved free nAccEntryNum

/-- A received payment with a comment, an order position and a spent output -/
def received (nVersion : Int32) (strTxComment : Bytes) : CWalletTx where
  nVersion
  vin := [⟨COutPoint.null, [0x51], 0⟩]
  vout := [⟨500000, [0x51]⟩, ⟨1, [0x51]⟩]
  nLockTime := 0
  strTxComment
  hashBlock := 7
  vMerkleBranch := [1, 2]
  nIndex := -1
  vtxPrev := []
  mapValue := (∅ : MapValue).insert (ascii "comment") (ascii "rent")
  vOrderForm := []
  fTimeReceivedIsTxTime := 1
  nTimeReceived := 1400000000
  nTimeSmart := 1400000007
  fFromMe := 0
  strFromAccount := ascii "home"
  vfSpent := [false, true]
  nOrderPos := 12

def transfer : CAccountingEntry where
  strAccount := ascii "home"
  nCreditDebit := -5
  nTime := 1400000000
  strOtherAccount := ascii "savings"
  strComment := ascii "rent"
  mapValue := ∅
  nOrderPos := 13
  nEntryNo := 2
  ssExtra := []

theorem received_sized : (received 2 [0x21]).Sized where
  tx := ⟨⟨by decide, by decide, by decide, by decide, by decide⟩, fun old => absurd (by decide) old, by decide⟩
  vtxPrev := by decide
  prevs := List.forall_mem_nil _
  mapValue := ⟨by decide, by decide⟩
  vOrderForm := by decide
  forms := List.forall_mem_nil _

theorem wallet_records_round_trip_sample :
    Reads CWalletTx.unserialize (received 2 [0x21]).serialize.1 (received 2 [0x21]) ∧
      CAccountingEntry.readRecord (transfer.recordKey 2) (transfer.serialize 80102).1 = some transfer :=
  ⟨(wallet_records_round_trip.1 (received 2 [0x21]) (by decide)).2 received_sized,
    ((wallet_records_round_trip.2 transfer 80102 2 (by decide) (by decide)).2 ⟨by decide, by decide⟩).2 (by decide)⟩

/-- The comment of a version that does not write it is lost. -/
theorem wallet_record_lost :
    ¬ ∀ wtx : CWalletTx, CWalletTx.Unreserved wtx.mapValue → Reads CWalletTx.unserialize wtx.serialize.1 wtx := by
  intro all
  have read := (all (received 1 [0x21]) (by decide)).whole
  have comment := congrArg (Option.map fun pair : CWalletTx × Bytes => pair.1.strTxComment) read
  exact absurd comment (by decide +kernel)

end BitCrystal.WalletFile
