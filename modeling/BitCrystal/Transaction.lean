import BitCrystal.Script
import BitCrystal.Serialize
import Mathlib.Data.List.Basic
import Std.Data.ExtTreeMap

namespace BitCrystal

open Data

/-! # Transactions -/

@[ext] structure COutPoint where
  hash : UInt256
  n : UInt32
deriving DecidableEq

namespace COutPoint

def isNull (outpoint : COutPoint) : Bool :=
  outpoint.hash = 0 && outpoint.n = 0xffffffff

def null : COutPoint := ⟨0, 0xffffffff⟩

/-- The position an outpoint names, with the index as a vector index. -/
def place (outpoint : COutPoint) : UInt256 × Nat :=
  (outpoint.hash, outpoint.n.toNat)

theorem place_injective : Function.Injective place := by
  intro left right same
  simp only [place, Prod.mk.injEq, UInt32.toNat_inj] at same
  exact COutPoint.ext same.1 same.2

def serialize (outpoint : COutPoint) : Bytes :=
  littleEndian 32 outpoint.hash.toNat ++ littleEndian 4 outpoint.n.toNat

/-- The order of `std::map<COutPoint, ...>`. -/
instance : Ord COutPoint :=
  ⟨compareLex (compareOn hash) (compareOn n)⟩

instance : Std.TransOrd COutPoint :=
  inferInstanceAs (Std.TransCmp (compareLex (compareOn hash) (compareOn n)))

instance : Std.LawfulEqOrd COutPoint where
  eq_of_compare {left right} same := by
    have both : (compare left.hash right.hash).then (compare left.n right.n) = .eq := same
    rw [Ordering.then_eq_eq] at both
    have hashes := Std.LawfulEqOrd.eq_of_compare both.1
    have indices := Std.LawfulEqOrd.eq_of_compare both.2
    cases left
    cases right
    simp_all

end COutPoint

structure CTxIn where
  prevout : COutPoint
  scriptSig : CScript
  nSequence : UInt32
deriving DecidableEq

namespace CTxIn

def isFinal (txin : CTxIn) : Bool :=
  txin.nSequence = 0xffffffff

def getSerializeSize (txin : CTxIn) : Nat :=
  36 + (getSizeOfCompactSize txin.scriptSig.length + txin.scriptSig.length) + 4

def serialize (txin : CTxIn) : Bytes :=
  txin.prevout.serialize ++ (writeCompactSize txin.scriptSig.length ++ txin.scriptSig) ++
    littleEndian 4 txin.nSequence.toNat

end CTxIn

structure CTxOut where
  nValue : Int64
  scriptPubKey : CScript
deriving DecidableEq

namespace CTxOut

/-- What `SetNull` leaves: the mark of a spent output in a coins entry. -/
def null : CTxOut := ⟨-1, []⟩

def isNull (txout : CTxOut) : Bool :=
  txout.nValue = -1

def value (txout : CTxOut) : Int :=
  txout.nValue.toInt

@[simp] theorem isNull_null : null.isNull = true := rfl

theorem not_isNull_of_value_nonneg {txout : CTxOut} (nonneg : 0 ≤ txout.value) :
    txout.isNull = false := by
  cases isNull : txout.isNull with
  | false => rfl
  | true =>
      have minusOne : txout.nValue = -1 := by simpa [CTxOut.isNull] using isNull
      rw [value, minusOne] at nonneg
      exact absurd nonneg (by decide)

def getSerializeSize (txout : CTxOut) : Nat :=
  8 + (getSizeOfCompactSize txout.scriptPubKey.length + txout.scriptPubKey.length)

def serialize (txout : CTxOut) : Bytes :=
  littleEndian 8 txout.nValue.toUInt64.toNat ++
    (writeCompactSize txout.scriptPubKey.length ++ txout.scriptPubKey)

/-- IsDust, with the division of the source truncating towards zero. -/
def isDust (settings : Settings) (txout : CTxOut) : Bool :=
  (txout.value * 1000).tdiv (3 * (txout.getSerializeSize + 148)) < settings.nMinRelayTxFee

end CTxOut

structure CTransaction where
  nVersion : Int32
  vin : List CTxIn
  vout : List CTxOut
  nLockTime : UInt32
  strTxComment : Bytes
deriving DecidableEq

namespace CTransaction

def CURRENT_VERSION : Int32 := 1
def TXCOMMENT_VERSION : Int32 := 2

def serialize (tx : CTransaction) : Bytes :=
  littleEndian 4 tx.nVersion.toUInt32.toNat ++
  (writeCompactSize tx.vin.length ++ tx.vin.flatMap CTxIn.serialize) ++
  (writeCompactSize tx.vout.length ++ tx.vout.flatMap CTxOut.serialize) ++
  littleEndian 4 tx.nLockTime.toNat ++
  if TXCOMMENT_VERSION ≤ tx.nVersion then
    writeCompactSize tx.strTxComment.length ++ tx.strTxComment
  else []

def getSerializeSize (tx : CTransaction) : Nat :=
  4 +
  (getSizeOfCompactSize tx.vin.length + (tx.vin.map CTxIn.getSerializeSize).sum) +
  (getSizeOfCompactSize tx.vout.length + (tx.vout.map CTxOut.getSerializeSize).sum) +
  4 +
  if TXCOMMENT_VERSION ≤ tx.nVersion then
    getSizeOfCompactSize tx.strTxComment.length + tx.strTxComment.length
  else 0

def getHash [Hashing] (tx : CTransaction) : UInt256 :=
  Hashing.Hash tx.serialize

/-- `operator==`, which leaves out `strTxComment`. -/
def equal (a b : CTransaction) : Bool :=
  a.nVersion = b.nVersion && a.vin = b.vin && a.vout = b.vout && a.nLockTime = b.nLockTime

def isCoinBase (tx : CTransaction) : Bool :=
  match tx.vin with
  | [txin] => txin.prevout.isNull
  | _ => false

/-- IsFinal; a zero height or time stands for the current best height or time. -/
def isFinal (nBestHeight adjustedTime : Int) (tx : CTransaction) (nBlockHeight nBlockTime : Int) :
    Bool :=
  if tx.nLockTime = 0 then true
  else
    let nBlockHeight := if nBlockHeight = 0 then nBestHeight else nBlockHeight
    let nBlockTime := if nBlockTime = 0 then adjustedTime else nBlockTime
    let nLockTime : Int := tx.nLockTime.toNat
    if nLockTime < (if nLockTime < LOCKTIME_THRESHOLD then nBlockHeight else nBlockTime) then true
    else tx.vin.all CTxIn.isFinal

def getLegacySigOpCount (tx : CTransaction) : Nat :=
  (tx.vin.map fun txin => txin.scriptSig.getSigOpCount false).sum +
    (tx.vout.map fun txout => txout.scriptPubKey.getSigOpCount false).sum

/-- One turn of the loop over the outputs in GetValueOut. -/
def addValueOut (nValueOut : Int) (txout : CTxOut) : Except Failure Int := do
  let nValueOut ← addInt64 nValueOut txout.value
  require (moneyRange txout.value ∧ moneyRange nValueOut)
    (.exception "CTransaction::GetValueOut() : value out of range")
  return nValueOut

def getValueOut (tx : CTransaction) : Except Failure Int :=
  tx.vout.foldlM addValueOut 0

/-- One turn of the loop over the outputs in CheckTransaction. -/
def checkOutput (nValueOut : Int) (txout : CTxOut) : Except Failure Int := do
  require (0 ≤ txout.value)
    (.dos 100 "CTransaction::CheckTransaction() : txout.nValue negative")
  require (txout.value ≤ MAX_MONEY)
    (.dos 100 "CTransaction::CheckTransaction() : txout.nValue too high")
  let nValueOut ← addInt64 nValueOut txout.value
  require (moneyRange nValueOut)
    (.dos 100 "CTransaction::CheckTransaction() : txout total out of range")
  return nValueOut

def coinBaseScriptSize (tx : CTransaction) : Nat :=
  match tx.vin with
  | txin :: _ => txin.scriptSig.length
  | [] => 0

def checkTransaction (tx : CTransaction) : Except Failure Unit := do
  require (tx.vin ≠ []) (.dos 10 "CTransaction::CheckTransaction() : vin empty")
  require (tx.vout ≠ []) (.dos 10 "CTransaction::CheckTransaction() : vout empty")
  require (tx.getSerializeSize ≤ MAX_BLOCK_SIZE)
    (.dos 100 "CTransaction::CheckTransaction() : size limits failed")
  let _ ← tx.vout.foldlM checkOutput 0
  require (tx.vin.map CTxIn.prevout).Nodup
    (.dos 100 "CTransaction::CheckTransaction() : duplicate inputs")
  if tx.isCoinBase then
    require (2 ≤ tx.coinBaseScriptSize ∧ tx.coinBaseScriptSize ≤ 100)
      (.dos 100 "CTransaction::CheckTransaction() : coinbase script size")
  else
    require (tx.vin.all fun txin => !txin.prevout.isNull)
      (.dos 10 "CTransaction::CheckTransaction() : prevout is null")

/-! ## What the checks establish -/

/-- The properties of a transaction that has passed CheckTransaction. -/
structure Checked (tx : CTransaction) : Prop where
  vin_ne_nil : tx.vin ≠ []
  vout_ne_nil : tx.vout ≠ []
  size_le : tx.getSerializeSize ≤ MAX_BLOCK_SIZE
  money : ∀ txout ∈ tx.vout, moneyRange txout.value
  inputs_nodup : (tx.vin.map CTxIn.prevout).Nodup

theorem checkOutput_run {txouts : List CTxOut} {before after : Int}
    (run : txouts.foldlM checkOutput before = .ok after) :
    after = before + (txouts.map CTxOut.value).sum ∧
      (∀ txout ∈ txouts, moneyRange txout.value) ∧
      (moneyRange before → moneyRange after) := by
  refine foldlM_relation (fun txouts before after =>
    after = before + (txouts.map CTxOut.value).sum ∧
      (∀ txout ∈ txouts, moneyRange txout.value) ∧
      (moneyRange before → moneyRange after)) ?_ ?_ run
  · intro state
    simp
  · intro txout rest state next last step ih
    simp only [checkOutput, bind_eq_ok, require_eq_ok, addInt64_eq_ok, pure_eq_ok,
      exists_const] at step
    obtain ⟨nonneg, low, sum, ⟨_, rfl⟩, total, rfl⟩ := step
    obtain ⟨lastEq, ranges, kept⟩ := ih
    refine ⟨by rw [lastEq, List.map_cons, List.sum_cons, Int.add_assoc], ?_, fun _ => kept total⟩
    intro out member
    rcases List.mem_cons.mp member with rfl | member
    · exact moneyRange_iff.mpr ⟨nonneg, low⟩
    · exact ranges out member

theorem Checked.of_checkTransaction {tx : CTransaction} {done : Unit}
    (run : tx.checkTransaction = .ok done) : tx.Checked := by
  simp only [checkTransaction, bind_eq_ok, require_eq_ok, exists_const] at run
  obtain ⟨vin, vout, size, total, outputs, inputs, _⟩ := run
  exact ⟨vin, vout, size, (checkOutput_run outputs).2.1, inputs⟩

theorem Checked.not_isNull {tx : CTransaction} (checked : tx.Checked) {txout : CTxOut}
    (member : txout ∈ tx.vout) : txout.isNull = false :=
  CTxOut.not_isNull_of_value_nonneg (moneyRange_iff.mp (checked.money txout member)).1

theorem getValueOut_run {txouts : List CTxOut} {before after : Int}
    (run : txouts.foldlM addValueOut before = .ok after) :
    after = before + (txouts.map CTxOut.value).sum := by
  refine foldlM_relation (fun txouts before after =>
    after = before + (txouts.map CTxOut.value).sum) ?_ ?_ run
  · intro state
    simp
  · intro txout rest state next last step ih
    simp only [addValueOut, bind_eq_ok, require_eq_ok, addInt64_eq_ok, pure_eq_ok,
      exists_const] at step
    obtain ⟨sum, ⟨_, rfl⟩, _, rfl⟩ := step
    rw [ih, List.map_cons, List.sum_cons, Int.add_assoc]

theorem getValueOut_eq {tx : CTransaction} {nValueOut : Int} (run : tx.getValueOut = .ok nValueOut) :
    nValueOut = (tx.vout.map CTxOut.value).sum := by
  simpa using getValueOut_run run

end CTransaction

end BitCrystal
