import BitCrystal.Coins
import Mathlib.Tactic.IntervalCases

namespace BitCrystal

open Data CScript

/-! # Compact serialization of outputs, undo information and coins entries -/

/-- The elliptic-curve library behind CKey. `uncompressed key` is the 65-byte
form of the point that `key` encodes, when SetPubKey accepts it; the parity of
the second coordinate and the first coordinate determine the point. -/
class PubKeys where
  uncompressed : Bytes → Option Bytes
  uncompressed_of_parity : ∀ x y : Bytes, ∀ parity : UInt8, x.length = 32 → y.length = 31 →
    (uncompressed (0x04 :: (x ++ (y ++ [parity])))).isSome →
      uncompressed ((0x02 ||| (parity &&& 0x01)) :: x) = some (0x04 :: (x ++ (y ++ [parity])))

/-! ## Amounts -/

/-- Divide by ten while the number is a multiple of ten, at most `turns` times;
the result counts the divisions. -/
def stripZeros : Nat → Nat → Nat × Nat
  | 0, n => (n, 0)
  | turns + 1, n =>
      if n % 10 = 0 then
        let (rest, e) := stripZeros turns (n / 10)
        (rest, e + 1)
      else (n, 0)

def compressAmount (n : Nat) : Nat :=
  if n = 0 then 0
  else
    let (n, e) := stripZeros 9 n
    if e < 9 then (1 + (n / 10 * 9 + n % 10 - 1) * 10 + e) % 2 ^ 64
    else (1 + (n - 1) * 10 + 9) % 2 ^ 64

def decompressAmount (x : Nat) : Nat :=
  if x = 0 then 0
  else
    let e := (x - 1) % 10
    let x := (x - 1) / 10
    let n := if e < 9 then x / 9 * 10 + (x % 9 + 1) else x + 1
    n * 10 ^ e % 2 ^ 64

private theorem stripZeros_spec (turns n : Nat) (positive : 0 < n) :
    n = (stripZeros turns n).1 * 10 ^ (stripZeros turns n).2 ∧ 0 < (stripZeros turns n).1 ∧
      (stripZeros turns n).2 ≤ turns ∧
      ((stripZeros turns n).2 < turns → (stripZeros turns n).1 % 10 ≠ 0) := by
  induction turns generalizing n with
  | zero => simp [stripZeros, positive]
  | succ turns ih =>
      unfold stripZeros
      split
      · rename_i multiple
        obtain ⟨value, pos, bound, last⟩ := ih (n / 10) (by omega)
        refine ⟨?_, pos, by simpa using bound, fun fewer => last (by simpa using fewer)⟩
        rw [Nat.pow_succ, ← Nat.mul_assoc, ← value]
        omega
      · rename_i stops
        exact ⟨by simp, positive, by simp, fun _ => stops⟩

def codeAmount (x : Nat) : Nat :=
  if x = 0 then 0
  else
    let e := (x - 1) % 10
    let x := (x - 1) / 10
    let n := if e < 9 then x / 9 * 10 + (x % 9 + 1) else x + 1
    n * 10 ^ e

theorem decompressAmount_eq (x : Nat) : decompressAmount x = codeAmount x % 2 ^ 64 := by
  unfold decompressAmount codeAmount
  split <;> rfl

theorem compressAmount_cases {n : Nat} (positive : 0 < n) (money : (n : Int) ≤ MAX_MONEY) :
    ∃ m e, stripZeros 9 n = (m, e) ∧ n = m * 10 ^ e ∧ 0 < m ∧ m ≤ n ∧
      ((e < 9 ∧ m % 10 ≠ 0 ∧ compressAmount n = 1 + (m / 10 * 9 + m % 10 - 1) * 10 + e) ∨
        (e = 9 ∧ compressAmount n = 1 + (m - 1) * 10 + 9)) := by
  have bound : n ≤ 50000000000000 := by
    have := money
    simp only [MAX_MONEY, COIN] at this
    omega
  obtain ⟨value, stripped, turns, last⟩ := stripZeros_spec 9 n positive
  have compressed : compressAmount n =
      if (stripZeros 9 n).2 < 9 then
        (1 + ((stripZeros 9 n).1 / 10 * 9 + (stripZeros 9 n).1 % 10 - 1) * 10 +
          (stripZeros 9 n).2) % 2 ^ 64
      else (1 + ((stripZeros 9 n).1 - 1) * 10 + 9) % 2 ^ 64 := by
    simp [compressAmount, Nat.pos_iff_ne_zero.mp positive]
  refine ⟨(stripZeros 9 n).1, (stripZeros 9 n).2, rfl, value, stripped, ?_⟩
  generalize (stripZeros 9 n).1 = m at *
  generalize (stripZeros 9 n).2 = e at *
  have small : m ≤ n := by
    rw [value]
    exact Nat.le_mul_of_pos_right m (Nat.pow_pos (by decide))
  refine ⟨small, ?_⟩
  rw [compressed]
  clear compressed
  split
  · rename_i fewer
    have small : 1 + (m / 10 * 9 + m % 10 - 1) * 10 + e < 2 ^ 64 := by omega
    exact .inl ⟨fewer, last fewer, Nat.mod_eq_of_lt small⟩
  · rename_i all
    have small : 1 + (m - 1) * 10 + 9 < 2 ^ 64 := by omega
    exact .inr ⟨by omega, Nat.mod_eq_of_lt small⟩

theorem codeAmount_compressAmount {n : Nat} (money : (n : Int) ≤ MAX_MONEY) :
    codeAmount (compressAmount n) = n := by
  rcases Nat.eq_zero_or_pos n with rfl | positive
  · rfl
  · obtain ⟨m, e, -, value, stripped, -, ⟨fewer, digit, compressed⟩ | ⟨rfl, compressed⟩⟩ :=
      compressAmount_cases positive money
    · have x : 1 + (m / 10 * 9 + m % 10 - 1) * 10 + e - 1 = (m / 10 * 9 + m % 10 - 1) * 10 + e := by
        omega
      have exponent : ((m / 10 * 9 + m % 10 - 1) * 10 + e) % 10 = e := by omega
      have quotient : ((m / 10 * 9 + m % 10 - 1) * 10 + e) / 10 = m / 10 * 9 + m % 10 - 1 := by omega
      have digits : (m / 10 * 9 + m % 10 - 1) / 9 * 10 + ((m / 10 * 9 + m % 10 - 1) % 9 + 1) = m := by
        omega
      rw [compressed, codeAmount, if_neg (by omega)]
      simp only [x, exponent, quotient, if_pos fewer, digits]
      exact value.symm
    · have x : 1 + (m - 1) * 10 + 9 - 1 = (m - 1) * 10 + 9 := by omega
      have exponent : ((m - 1) * 10 + 9) % 10 = 9 := by omega
      have quotient : ((m - 1) * 10 + 9) / 10 = m - 1 := by omega
      have number : m - 1 + 1 = m := by omega
      rw [compressed, codeAmount, if_neg (by omega)]
      simp only [x, exponent, quotient, lt_self_iff_false, if_false, number]
      exact value.symm

theorem decompressAmount_compressAmount {n : Nat} (money : (n : Int) ≤ MAX_MONEY) :
    decompressAmount (compressAmount n) = n := by
  have bound : n < 2 ^ 64 := by
    have := money
    simp only [MAX_MONEY, COIN] at this
    omega
  rw [decompressAmount_eq, codeAmount_compressAmount money, Nat.mod_eq_of_lt bound]

/-! ## Scripts -/

namespace CScriptCompressor

def nSpecialScripts : Nat := 6

def isToKeyID (script : CScript) : Option Bytes :=
  if script.length = 25 ∧ script.take 3 = [OP_DUP, OP_HASH160, 20] ∧
      script.drop 23 = [OP_EQUALVERIFY, OP_CHECKSIG] then
    some ((script.drop 3).take 20)
  else none

def isToScriptID (script : CScript) : Option Bytes :=
  if script.length = 23 ∧ script.take 2 = [OP_HASH160, 20] ∧ script.drop 22 = [OP_EQUAL] then
    some ((script.drop 2).take 20)
  else none

private theorem cut (script : CScript) (a b : Nat) :
    script = script.take a ++ ((script.drop a).take b ++ script.drop (a + b)) := by
  rw [← List.drop_drop, List.take_append_drop, List.take_append_drop]

private theorem cut_length {script : CScript} {a b c : Nat} (length : script.length = a + b + c) :
    ((script.drop a).take b).length = b := by
  simp only [List.length_take, List.length_drop]
  omega

private theorem split_coordinates {bytes : Bytes} (length : bytes.length = 64) :
    ∃ x y : Bytes, ∃ parity : UInt8, bytes = x ++ (y ++ [parity]) ∧ x.length = 32 ∧ y.length = 31 := by
  have nonempty : bytes.drop 32 ≠ [] := by
    intro none
    have short := congrArg List.length none
    simp only [List.length_drop, length, List.length_nil] at short
    omega
  refine ⟨bytes.take 32, (bytes.drop 32).dropLast, (bytes.drop 32).getLast nonempty, ?_, ?_, ?_⟩
  · rw [List.dropLast_append_getLast, List.take_append_drop]
  · simp [length]
  · simp [length]

private theorem slice_cons {bytes : Bytes} {first : UInt8} {start count : Nat}
    (found : bytes[start]? = some first) :
    (bytes.drop start).take (count + 1) = first :: (bytes.drop (start + 1)).take count := by
  obtain ⟨within, rfl⟩ := List.getElem?_eq_some_iff.mp found
  rw [List.drop_eq_getElem_cons within, List.take_succ_cons]

private theorem parity_cases (parity : UInt8) : parity &&& 0x01 = 0 ∨ parity &&& 0x01 = 1 := by
  have bit : (parity &&& 0x01).toNat = parity.toNat % 2 := by
    rw [UInt8.toNat_and]
    exact Nat.and_one_is_mod parity.toNat
  rcases Nat.mod_two_eq_zero_or_one parity.toNat with even | odd
  · exact .inl (UInt8.toNat_inj.mp (by rw [bit, even]; rfl))
  · exact .inr (UInt8.toNat_inj.mp (by rw [bit, odd]; rfl))

variable [PubKeys]

def isToPubKey (script : CScript) : Option Bytes :=
  if script.length = 35 ∧ script.take 1 = [33] ∧ script.drop 34 = [OP_CHECKSIG] ∧
      (script[1]? = some 0x02 ∨ script[1]? = some 0x03) then
    some ((script.drop 1).take 33)
  else if script.length = 67 ∧ script.take 1 = [65] ∧ script.drop 66 = [OP_CHECKSIG] ∧
      script[1]? = some 0x04 ∧ (PubKeys.uncompressed ((script.drop 1).take 65)).isSome then
    some ((script.drop 1).take 65)
  else none

/-- `out` of Compress for a public key. -/
def compressPubKey : Bytes → Option Bytes
  | [] => none
  | first :: rest =>
      if first = 0x02 ∨ first = 0x03 then some (first :: rest.take 32)
      else if first = 0x04 then some ((0x04 ||| (rest.getLast?.getD 0 &&& 0x01)) :: rest.take 32)
      else none

def compress (script : CScript) : Option Bytes :=
  match isToKeyID script with
  | some keyID => some (0x00 :: keyID)
  | none =>
      match isToScriptID script with
      | some scriptID => some (0x01 :: scriptID)
      | none => (isToPubKey script).bind compressPubKey

def getSpecialSize (nSize : Nat) : Nat :=
  if nSize = 0 ∨ nSize = 1 then 20 else 32

/-- Decompress; where it fails the freshly constructed script stays empty. -/
def decompress (nSize : Nat) (vch : Bytes) : CScript :=
  if nSize = 0 then [OP_DUP, OP_HASH160, 20] ++ vch ++ [OP_EQUALVERIFY, OP_CHECKSIG]
  else if nSize = 1 then [OP_HASH160, 20] ++ vch ++ [OP_EQUAL]
  else if nSize = 2 ∨ nSize = 3 then [33, UInt8.ofNat nSize] ++ vch ++ [OP_CHECKSIG]
  else
    match PubKeys.uncompressed (UInt8.ofNat (nSize - 2) :: vch) with
    | none => []
    | some pubkey => [65] ++ pubkey ++ [OP_CHECKSIG]

def serialize (script : CScript) : Bytes :=
  match compress script with
  | some compr => compr
  | none => writeVarInt 32 ((script.length + nSpecialScripts) % 2 ^ 32 : Nat) ++ script

def getSerializeSize (script : CScript) : Nat :=
  match compress script with
  | some compr => compr.length
  | none => script.length + getSizeOfVarInt 32 ((script.length + nSpecialScripts) % 2 ^ 32 : Nat)

theorem serialize_length (script : CScript) : (serialize script).length = getSerializeSize script := by
  unfold serialize getSerializeSize
  cases compress script with
  | some compr => rfl
  | none => simp only [List.length_append, writeVarInt_length, Nat.add_comm]

def unserialize : Reader CScript := do
  let nSize ← readVarInt 32
  if nSize < nSpecialScripts then
    let vch ← Reader.take (getSpecialSize nSize)
    return decompress nSize vch
  else
    Reader.take (nSize - nSpecialScripts)

private theorem unserialize_special (nSize : Nat) (vch : Bytes) (special : nSize < 6)
    (length : vch.length = getSpecialSize nSize) :
    Reads unserialize (UInt8.ofNat nSize :: vch) (decompress nSize vch) := by
  have code : writeVarInt 32 (nSize : Nat) = [UInt8.ofNat nSize] := by
    interval_cases nSize <;> rfl
  have size := readVarInt_reads 32 (by decide) (show nSize < 2 ^ 32 by omega)
  rw [code] at size
  refine size.bind ?_
  rw [if_pos (show nSize < nSpecialScripts from special)]
  exact (Reads.take_of_length length).map (decompress nSize)

private theorem isToKeyID_reads {script keyID : Bytes} (found : isToKeyID script = some keyID) :
    Reads unserialize (0x00 :: keyID) script := by
  unfold isToKeyID at found
  split at found
  · rename_i shape
    obtain ⟨length, front, back⟩ := shape
    cases found
    have whole := cut script 3 20
    rw [front, back] at whole
    have reads := unserialize_special 0 ((script.drop 3).take 20) (by decide)
      (cut_length (a := 3) (c := 2) length)
    simp only [decompress, if_true, List.append_assoc] at reads
    rwa [← whole] at reads
  · contradiction

private theorem isToScriptID_reads {script scriptID : Bytes}
    (found : isToScriptID script = some scriptID) :
    Reads unserialize (0x01 :: scriptID) script := by
  unfold isToScriptID at found
  split at found
  · rename_i shape
    obtain ⟨length, front, back⟩ := shape
    cases found
    have whole := cut script 2 20
    rw [front, back] at whole
    have reads := unserialize_special 1 ((script.drop 2).take 20) (by decide)
      (cut_length (a := 2) (c := 1) length)
    simp only [decompress, one_ne_zero, if_false, if_true, List.append_assoc] at reads
    rwa [← whole] at reads
  · contradiction

private theorem compressed_reads {script : Bytes} {first : UInt8} (nSize : Nat)
    (length : script.length = 35) (front : script.take 1 = [33])
    (back : script.drop 34 = [OP_CHECKSIG]) (code : nSize = 2 ∨ nSize = 3)
    (second : script[1]? = some first) (same : first = UInt8.ofNat nSize) :
    Reads unserialize (first :: (script.drop 2).take 32) script := by
  have whole := cut script 2 32
  have start : script.take 2 = [33, UInt8.ofNat nSize] := by
    rw [List.take_add_one, front, second, same]
    rfl
  rw [start, back] at whole
  have reads := unserialize_special nSize ((script.drop 2).take 32) (by omega) (by
    rw [cut_length (a := 2) (c := 1) length]
    rcases code with rfl | rfl <;> rfl)
  have shape : decompress nSize ((script.drop 2).take 32) = script := by
    unfold decompress
    rw [if_neg (by omega), if_neg (by omega), if_pos code, List.append_assoc]
    exact whole.symm
  rwa [shape, ← same] at reads

private theorem uncompressed_reads {script : Bytes}
    (length : script.length = 67) (start : script.take 2 = [65, 0x04])
    (back : script.drop 66 = [OP_CHECKSIG])
    (valid : (PubKeys.uncompressed (0x04 :: (script.drop 2).take 64)).isSome) :
    Reads unserialize
      ((0x04 ||| (((script.drop 2).take 64).getLast?.getD 0 &&& 0x01)) ::
        ((script.drop 2).take 64).take 32) script := by
  have whole := cut script 2 64
  rw [start, back] at whole
  obtain ⟨x, y, parity, split, xLength, yLength⟩ :=
    split_coordinates (cut_length (a := 2) (c := 1) length)
  rw [split] at whole valid ⊢
  have point := PubKeys.uncompressed_of_parity x y parity xLength yLength valid
  have front : (x ++ (y ++ [parity])).take 32 = x := by
    rw [← xLength]
    exact List.take_left
  have last : (x ++ (y ++ [parity])).getLast?.getD 0 = parity := by simp
  rw [front, last]
  have special : ∀ nSize, nSize = 4 ∨ nSize = 5 →
      UInt8.ofNat (nSize - 2) = 0x02 ||| (parity &&& 0x01) →
      Reads unserialize (UInt8.ofNat nSize :: x) script := by
    intro nSize code first
    have reads := unserialize_special nSize x (by omega) (by rcases code with rfl | rfl <;> exact xLength)
    have shape : decompress nSize x = script := by
      unfold decompress
      rw [if_neg (by omega), if_neg (by omega), if_neg (by omega), first, point]
      simpa using whole.symm
    rwa [shape] at reads
  rcases parity_cases parity with even | odd
  · rw [even]
    exact special 4 (.inl rfl) (by rw [even]; rfl)
  · rw [odd]
    exact special 5 (.inr rfl) (by rw [odd]; rfl)

private theorem isToPubKey_reads {script pubkey compr : Bytes}
    (found : isToPubKey script = some pubkey) (compressed : compressPubKey pubkey = some compr) :
    Reads unserialize compr script := by
  unfold isToPubKey at found
  split at found
  · rename_i shape
    obtain ⟨length, front, back, first⟩ := shape
    cases found
    rcases first with second | second
    · rw [slice_cons second] at compressed
      cases compressed
      rw [List.take_take]
      exact compressed_reads 2 length front back (.inl rfl) second rfl
    · rw [slice_cons second] at compressed
      cases compressed
      rw [List.take_take]
      exact compressed_reads 3 length front back (.inr rfl) second rfl
  · split at found
    · rename_i shape
      obtain ⟨length, front, back, second, valid⟩ := shape
      cases found
      rw [slice_cons second] at compressed valid
      cases compressed
      have start : script.take 2 = [65, 0x04] := by
        rw [List.take_add_one, front, second]
        rfl
      exact uncompressed_reads length start back valid
    · contradiction

/-- Every script survives compression, whatever its shape. -/
theorem unserialize_reads {script : CScript} (bounded : script.length + nSpecialScripts < 2 ^ 32) :
    Reads unserialize (serialize script) script := by
  unfold serialize
  cases compressed : compress script with
  | none =>
      have size := readVarInt_reads 32 (by decide) bounded
      rw [Nat.mod_eq_of_lt bounded]
      refine size.bind ?_
      rw [if_neg (by omega), Nat.add_sub_cancel]
      exact Reads.take script
  | some compr =>
      unfold compress at compressed
      cases keyID : isToKeyID script with
      | some hash =>
          rw [keyID] at compressed
          cases compressed
          exact isToKeyID_reads keyID
      | none =>
          cases scriptID : isToScriptID script with
          | some hash =>
              simp only [keyID, scriptID, Option.some.injEq] at compressed
              subst compressed
              exact isToScriptID_reads scriptID
          | none =>
              simp only [keyID, scriptID, Option.bind_eq_some_iff] at compressed
              obtain ⟨pubkey, found, compressed⟩ := compressed
              exact isToPubKey_reads found compressed

end CScriptCompressor

end BitCrystal
