import BitCrystal.Data.Outcome
import BitCrystal.Data.Reader
import Mathlib.Data.BitVec

namespace BitCrystal

open Data

abbrev UInt256 := BitVec 256

instance transOrd_uint256 : Std.TransOrd UInt256 := inferInstanceAs (Std.TransOrd (BitVec 256))

instance finite_bitVec (width : Nat) : Finite (BitVec width) :=
  Finite.of_equiv (Fin (2 ^ width)) BitVec.equivFin.toEquiv.symm

/-- How a call ends when it does not return true. -/
inductive Failure where
  /-- `state.DoS(level, ...)`; `state.Invalid(...)` is level 0. -/
  | dos (level : Nat) (reason : String)
  /-- `return false` or `return error(...)` with the validation state untouched. -/
  | refused (reason : String)
  /-- The refusal of CTxMemPool::accept that sets `*pfMissingInputs`. -/
  | missingInputs
  /-- `state.Error()` or `state.Abort(...)`: a run-time error. -/
  | abort (reason : String)
  /-- A thrown `std::runtime_error`. -/
  | exception (reason : String)
  /-- A signed 64-bit operation out of range. -/
  | overflow
  /-- A failed assertion, a null dereference or an index out of range. -/
  | undefined (reason : String)
  /-- A loop or a recursion that does not end. -/
  | endless
deriving DecidableEq, Repr

/-- `state.IsInvalid()` after the call. -/
def Failure.isInvalid : Failure → Bool
  | .dos _ _ => true
  | _ => false

/-- The caller sees `false`, and not a thrown exception or a program that has stopped. -/
def Failure.returnsFalse : Failure → Bool
  | .dos _ _ | .refused _ | .missingInputs | .abort _ => true
  | _ => false

/-! ## Constants of main.h and util.h -/

def COIN : Int := 100000
def MAX_MONEY : Int := 500000000 * COIN
def MAX_BLOCK_SIZE : Nat := 1000000
def MAX_BLOCK_SIZE_GEN : Nat := MAX_BLOCK_SIZE / 2
def MAX_STANDARD_TX_SIZE : Nat := MAX_BLOCK_SIZE_GEN / 5
def MAX_BLOCK_SIGOPS : Nat := MAX_BLOCK_SIZE / 50
def MAX_TX_COMMENT_LEN : Nat := 140
def COINBASE_MATURITY : Int := 120
def MEMPOOL_HEIGHT : Int := 0x7FFFFFFF
def LOCKTIME_THRESHOLD : Int := 500000000

def moneyRange (nValue : Int) : Bool :=
  0 ≤ nValue && nValue ≤ MAX_MONEY

theorem moneyRange_iff {nValue : Int} :
    moneyRange nValue = true ↔ 0 ≤ nValue ∧ nValue ≤ MAX_MONEY := by
  simp [moneyRange]

/-! ## Bytes -/

theorem forall_byte {p : UInt8 → Prop} (each : ∀ n : Fin 256, p (UInt8.ofFin n)) (byte : UInt8) : p byte := by
  have value := each byte.toFin
  simpa using value

theorem map_ofNat_toNat (v : Bytes) : (v.map UInt8.toNat).map UInt8.ofNat = v := by
  rw [List.map_map]
  exact (List.map_congr_left fun byte _ => UInt8.ofNat_toNat).trans (List.map_id _)

theorem map_toNat_ofNat {digits : List Nat} (small : ∀ digit ∈ digits, digit < 256) :
    (digits.map UInt8.ofNat).map UInt8.toNat = digits := by
  rw [List.map_map]
  refine (List.map_congr_left fun digit member => ?_).trans (List.map_id _)
  exact UInt8.toNat_ofNat'.trans (Nat.mod_eq_of_lt (small digit member))

theorem toNat_small (v : Bytes) : ∀ digit ∈ v.map UInt8.toNat, digit < 256 := by
  intro digit member
  obtain ⟨byte, -, rfl⟩ := List.mem_map.mp member
  exact byte.toNat_lt

/-! ## Signed 64-bit arithmetic -/

theorem toUInt64_toNat {nValue : Int64} (nonneg : 0 ≤ nValue.toInt) :
    (nValue.toUInt64.toNat : Int) = nValue.toInt := by
  have small := Int64.toInt_lt nValue
  have whole : nValue.toInt = (nValue.toUInt64.toNat : Int).bmod (2 ^ 64) := by
    rw [← Int64.toInt_toBitVec, BitVec.toInt_eq_toNat_bmod]
    rfl
  have bound := nValue.toUInt64.toNat_lt
  rw [Int.bmod_def] at whole
  split at whole <;> omega

def int64Range (value : Int) : Prop :=
  -2 ^ 63 ≤ value ∧ value < 2 ^ 63

instance (value : Int) : Decidable (int64Range value) :=
  inferInstanceAs (Decidable (_ ∧ _))

/-- A sum of `int64` operands; leaving the range is undefined in the source. -/
def addInt64 (a b : Int) : Except Failure Int :=
  if int64Range (a + b) then .ok (a + b) else .error .overflow

def subInt64 (a b : Int) : Except Failure Int :=
  if int64Range (a - b) then .ok (a - b) else .error .overflow

/-- The product of `int64` operands. -/
def mulInt64 (a b : Int) : Except Failure Int :=
  if int64Range (a * b) then .ok (a * b) else .error .overflow

@[simp] theorem addInt64_eq_ok {a b sum : Int} :
    addInt64 a b = .ok sum ↔ int64Range (a + b) ∧ a + b = sum := by
  unfold addInt64
  split <;> simp_all

@[simp] theorem subInt64_eq_ok {a b difference : Int} :
    subInt64 a b = .ok difference ↔ int64Range (a - b) ∧ a - b = difference := by
  unfold subInt64
  split <;> simp_all

@[simp] theorem mulInt64_eq_ok {a b product : Int} :
    mulInt64 a b = .ok product ↔ int64Range (a * b) ∧ a * b = product := by
  unfold mulInt64
  split <;> simp_all

/-! ## Signed 32-bit arithmetic -/

def int32Range (value : Int) : Prop :=
  -2 ^ 31 ≤ value ∧ value < 2 ^ 31

instance (value : Int) : Decidable (int32Range value) :=
  inferInstanceAs (Decidable (_ ∧ _))

/-- The value of an `int` expression. One outside the range is undefined in the source, and
`overflow` says what it is. -/
def intValue (overflow : Int → Int) (value : Int) : Int :=
  if int32Range value then value else overflow value

theorem intValue_of_range {overflow : Int → Int} {value : Int} (inside : int32Range value) :
    intValue overflow value = value :=
  if_pos inside

/-- What the program reads from its command line and its clock. -/
structure Settings where
  fTestNet : Bool
  fTxIndex : Bool
  nScriptCheckThreads : Nat
  nMinRelayTxFee : Int
  nCoinCacheSize : Nat
  adjustedTime : Int

/-- The hash functions: `Hash` (OpenSSL's SHA-256, twice) and `Hash9`. -/
class Hashing where
  Hash : Bytes → UInt256
  Hash9 : Bytes → UInt256

namespace Sample

/-- Hashing for examples; the hash of a block is its nonce. -/
scoped instance hashing : Hashing where
  Hash bytes := BitVec.ofNat 256 (bytes.foldl (fun sum byte => sum * 257 + byte.toNat + 1) 0)
  Hash9 bytes := BitVec.ofNat 256 (ofLittleEndian (bytes.drop 76))

end Sample

end BitCrystal
