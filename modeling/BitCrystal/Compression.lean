import BitCrystal.BlockSerialize

namespace BitCrystal

open Data

/-! # What compressed outputs bring back -/

/-! ## Amounts without overflow -/

/-- The result of a 64-bit operation that does not overflow. -/
def fits64 (n : Nat) : Option Nat := if n < 2 ^ 64 then some n else none

/-- CompressAmount with its assertion, and with each operation checked for overflow. -/
def compressAmountChecked (n : Nat) : Option Nat :=
  if n = 0 then some 0
  else
    let (n, e) := stripZeros 9 n
    if e < 9 then do
      let d := n % 10
      guard (1 ≤ d ∧ d ≤ 9)
      let digits ← fits64 (n / 10 * 9)
      let digits ← fits64 (digits + d)
      let shifted ← fits64 ((digits - 1) * 10)
      let code ← fits64 (1 + shifted)
      fits64 (code + e)
    else do
      let shifted ← fits64 ((n - 1) * 10)
      let code ← fits64 (1 + shifted)
      fits64 (code + 9)

/-- The last loop of DecompressAmount. -/
def timesTen : Nat → Nat → Option Nat
  | 0, n => some n
  | e + 1, n => fits64 (n * 10) >>= timesTen e

/-- DecompressAmount with each operation checked for overflow. -/
def decompressAmountChecked (x : Nat) : Option Nat :=
  if x = 0 then some 0
  else
    let e := (x - 1) % 10
    let x := (x - 1) / 10
    if e < 9 then do
      let n ← fits64 (x / 9 * 10)
      let n ← fits64 (n + (x % 9 + 1))
      timesTen e n
    else fits64 (x + 1) >>= timesTen e

theorem fits64_eq {n : Nat} (small : n < 2 ^ 64) : fits64 n = some n := if_pos small

theorem timesTen_eq (e : Nat) {n : Nat} (small : n * 10 ^ e < 2 ^ 64) : timesTen e n = some (n * 10 ^ e) := by
  induction e generalizing n with
  | zero => rw [timesTen, Nat.pow_zero, Nat.mul_one]
  | succ e ih =>
      have grow : n * 10 ^ (e + 1) = n * 10 * 10 ^ e := by rw [Nat.pow_succ, Nat.mul_comm (10 ^ e), Nat.mul_assoc]
      rw [grow] at small ⊢
      have step : n * 10 < 2 ^ 64 :=
        Nat.lt_of_le_of_lt (Nat.le_mul_of_pos_right _ (Nat.pow_pos (by decide))) small
      rw [timesTen, fits64_eq step, Option.bind_eq_bind, Option.bind_some, ih small]

theorem compressAmountChecked_eq {n : Nat} (money : (n : Int) ≤ MAX_MONEY) :
    compressAmountChecked n = some (compressAmount n) := by
  have bound : n ≤ 50000000000000 := by
    have := money
    simp only [MAX_MONEY, COIN] at this
    omega
  rcases Nat.eq_zero_or_pos n with rfl | positive
  · rfl
  · obtain ⟨m, e, stripped, -, nonzero, small, ⟨fewer, digit, compressed⟩ | ⟨rfl, compressed⟩⟩ :=
      compressAmount_cases positive money
    · have last : 1 ≤ m % 10 ∧ m % 10 ≤ 9 := by omega
      rw [compressAmountChecked, if_neg (by omega), stripped, compressed]
      simp only [if_pos fewer, guard, if_pos last, Option.bind_eq_bind, Option.pure_def, Option.bind_some,
        fits64_eq (show m / 10 * 9 < 2 ^ 64 by omega), fits64_eq (show m / 10 * 9 + m % 10 < 2 ^ 64 by omega),
        fits64_eq (show (m / 10 * 9 + m % 10 - 1) * 10 < 2 ^ 64 by omega),
        fits64_eq (show 1 + (m / 10 * 9 + m % 10 - 1) * 10 < 2 ^ 64 by omega),
        fits64_eq (show 1 + (m / 10 * 9 + m % 10 - 1) * 10 + e < 2 ^ 64 by omega)]
    · rw [compressAmountChecked, if_neg (by omega), stripped, compressed]
      simp only [lt_self_iff_false, if_false, Option.bind_eq_bind, Option.bind_some,
        fits64_eq (show (m - 1) * 10 < 2 ^ 64 by omega), fits64_eq (show 1 + (m - 1) * 10 < 2 ^ 64 by omega),
        fits64_eq (show 1 + (m - 1) * 10 + 9 < 2 ^ 64 by omega)]

/-- Only the whole result can overflow: everything on the way to it is smaller. -/
theorem decompressAmountChecked_eq {x : Nat} (small : codeAmount x < 2 ^ 64) :
    decompressAmountChecked x = some (codeAmount x) := by
  unfold decompressAmountChecked codeAmount at *
  split
  · rfl
  · rename_i nonzero
    simp only [if_neg nonzero] at small ⊢
    have part {n : Nat} (whole : n * 10 ^ ((x - 1) % 10) < 2 ^ 64) : n < 2 ^ 64 :=
      Nat.lt_of_le_of_lt (Nat.le_mul_of_pos_right _ (Nat.pow_pos (by decide))) whole
    split at small
    · rename_i digit
      have number := part small
      simp only [if_pos digit, Option.bind_eq_bind]
      rw [fits64_eq (by omega), Option.bind_some, fits64_eq number, Option.bind_some, timesTen_eq _ small]
    · rename_i nine
      simp only [if_neg nine, Option.bind_eq_bind]
      rw [fits64_eq (part small), Option.bind_some, timesTen_eq _ small]

/-! ## Scripts and undo data -/

namespace CScriptCompressor

variable [PubKeys]

theorem compress_short {script : CScript} {compr : Bytes} (compressed : compress script = some compr) :
    script.length ≤ 67 := by
  unfold compress at compressed
  split at compressed
  · rename_i keyID found
    unfold isToKeyID at found
    split at found
    · omega
    · contradiction
  · split at compressed
    · rename_i scriptID found
      unfold isToScriptID at found
      split at found
      · omega
      · contradiction
    · obtain ⟨pubkey, found, -⟩ := Option.bind_eq_some_iff.mp compressed
      unfold isToPubKey at found
      split at found
      · omega
      · split at found
        · omega
        · contradiction

theorem unserialize_reads_iff {script : CScript} :
    Reads unserialize (serialize script) script ↔ script.length + nSpecialScripts < 2 ^ 32 := by
  refine ⟨fun reads => ?_, unserialize_reads⟩
  by_contra long
  simp only [nSpecialScripts, Nat.not_lt] at long
  have written : serialize script = writeVarInt 32 ((script.length + nSpecialScripts) % 2 ^ 32 : Nat) ++ script := by
    unfold serialize
    cases compressed : compress script with
    | none => rfl
    | some compr =>
        have := compress_short compressed
        omega
  have size := readVarInt_reads 32 (by decide) (Nat.mod_lt (script.length + nSpecialScripts) (by decide : 0 < 2 ^ 32))
  have run := reads.whole
  rw [written, unserialize, Reads.bind_run size] at run
  -- fewer bytes are read than the script has
  have remaining {count : Nat} {read left : Bytes} (short : count < script.length)
      (taken : Reader.take count script = some (read, left)) : left ≠ [] := by
    rw [Reader.take, if_pos short.le] at taken
    cases taken
    intro none
    have := List.drop_eq_nil_iff.mp none
    omega
  have bound := Nat.mod_lt (script.length + nSpecialScripts) (by decide : 0 < 2 ^ 32)
  generalize (script.length + nSpecialScripts) % 2 ^ 32 = nSize at run bound
  split at run
  · have special : getSpecialSize nSize ≤ 32 := by
      unfold getSpecialSize
      split <;> decide
    cases taken : Reader.take (getSpecialSize nSize) script with
    | none =>
        have stuck : (Reader.take (getSpecialSize nSize) >>= fun vch => (pure (decompress nSize vch) : Reader CScript))
            script = none := by
          show (Reader.take (getSpecialSize nSize) script).bind _ = none
          rw [taken]
          rfl
        rw [stuck] at run
        contradiction
    | some result =>
        have ends : (Reader.take (getSpecialSize nSize) >>= fun vch => (pure (decompress nSize vch) : Reader CScript))
            script = some (decompress nSize result.1, result.2) := by
          show (Reader.take (getSpecialSize nSize) script).bind _ = _
          rw [taken]
          rfl
        rw [ends] at run
        have short : getSpecialSize nSize < script.length := by omega
        exact remaining short taken (congrArg Prod.snd (Option.some.inj run))
  · have fewer : nSize - nSpecialScripts < script.length := by
      simp only [nSpecialScripts]
      omega
    exact remaining fewer run rfl

end CScriptCompressor

namespace CTxInUndo

/-- The undo information that CCoins::Spend makes for an output: with the height, the version and
the coinbase flag of the transaction when it is the last one. -/
inductive Spends (tx : CTransaction) : CTxInUndo → Prop
  | output {txout : CTxOut} (member : txout ∈ tx.vout) : Spends tx ⟨txout, false, 0, 0⟩
  | last {txout : CTxOut} {fCoinBase : Bool} {nHeight : Int} (member : txout ∈ tx.vout)
      (height : 0 < nHeight ∧ nHeight < 2 ^ 31) : Spends tx ⟨txout, fCoinBase, nHeight, tx.nVersion⟩

variable {tx : CTransaction} {undo : CTxInUndo}

theorem Spends.storable (checked : tx.Checked) (spends : Spends tx undo) : undo.Storable := by
  cases spends with
  | output member => exact ⟨checked.storable.outputs _ member, ⟨Int.le_refl 0, (by decide : (0 : Int) < 2 ^ 31)⟩, fun _ => rfl⟩
  | last member height =>
      exact ⟨checked.storable.outputs _ member, ⟨height.1.le, height.2⟩, fun zero => absurd zero height.1.ne'⟩

theorem Spends.reads_iff [PubKeys] (checked : tx.Checked) (spends : Spends tx undo) :
    Reads unserialize undo.serialize undo ↔ 0 ≤ undo.nVersion.toInt := by
  have reads := (spends.storable checked).reads
  rw [← diskVersion_eq_self_iff]
  constructor
  · intro same
    exact congrArg CTxInUndo.nVersion (reads.unique same)
  · intro version
    rwa [onDisk, version] at reads

end CTxInUndo

/-- An amount, a script and the undo information for an output come back as they were. -/
structure CompressionKeeps [PubKeys] (n : Nat) (script : CScript) (undo : CTxInUndo) : Prop where
  compressed : compressAmountChecked n = some (compressAmount n)
  decompressed : decompressAmountChecked (compressAmount n) = some n
  injective : ∀ other : Nat, (other : Int) ≤ MAX_MONEY → compressAmount other = compressAmount n → other = n
  restored : Reads CScriptCompressor.unserialize (CScriptCompressor.serialize script) script
  scriptSize : CScriptCompressor.getSerializeSize script = (CScriptCompressor.serialize script).length
  txout : Reads CTxOutCompressor.unserialize (CTxOutCompressor.serialize undo.txout) undo.txout
  undo : Reads CTxInUndo.unserialize undo.serialize undo

/-- Undo information survives exactly with a version that is not negative, a script exactly with a size
that fits an `unsigned int`, and the rest always. -/
theorem compression_keeps_iff [PubKeys] {n : Nat} (money : (n : Int) ≤ MAX_MONEY) (script : CScript)
    {tx : CTransaction} (checked : tx.checkTransaction = .ok ()) {undo : CTxInUndo}
    (spends : CTxInUndo.Spends tx undo) :
    CompressionKeeps n script undo ↔
      script.length + CScriptCompressor.nSpecialScripts < 2 ^ 32 ∧ 0 ≤ undo.nVersion.toInt := by
  have fine := CTransaction.Checked.of_checkTransaction checked
  constructor
  · intro keeps
    exact ⟨CScriptCompressor.unserialize_reads_iff.mp keeps.restored, (spends.reads_iff fine).mp keeps.undo⟩
  · rintro ⟨short, version⟩
    have restored := codeAmount_compressAmount money
    have bound : n < 2 ^ 64 := by
      have := money
      simp only [MAX_MONEY, COIN] at this
      omega
    refine ⟨compressAmountChecked_eq money, ?_, fun other small same => ?_,
      CScriptCompressor.unserialize_reads short, (CScriptCompressor.serialize_length script).symm,
      (spends.storable fine).txout.reads, (spends.reads_iff fine).mpr version⟩
    · rw [decompressAmountChecked_eq (by rwa [restored]), restored]
    · rw [← codeAmount_compressAmount small, same, restored]

namespace Sample

/-- A transaction with the given version and one output. -/
def versioned (nVersion : Int32) : CTransaction :=
  ⟨nVersion, [⟨⟨0x77, 0⟩, [], 0xffffffff⟩], [⟨800000, [CScript.OP_1]⟩], 0, []⟩

theorem versioned_spends (nVersion : Int32) :
    CTxInUndo.Spends (versioned nVersion) ⟨⟨800000, [CScript.OP_1]⟩, false, 100, nVersion⟩ :=
  .last (List.mem_singleton_self _) ⟨by decide, by decide⟩

end Sample

open Sample

theorem compression_keeps_version : CompressionKeeps 123000 [CScript.OP_1] ⟨⟨800000, [CScript.OP_1]⟩, false, 100, 2⟩ :=
  (compression_keeps_iff (n := 123000) (by decide) [CScript.OP_1] (by decide) (versioned_spends 2)).mpr
    ⟨by decide, by decide⟩

/-- Version -1 is restored as 127. -/
theorem compression_loses_negative_version :
    (versioned (-1)).checkTransaction = .ok () ∧
      CTxInUndo.Spends (versioned (-1)) ⟨⟨800000, [CScript.OP_1]⟩, false, 100, -1⟩ ∧
      ¬ CompressionKeeps 123000 [CScript.OP_1] ⟨⟨800000, [CScript.OP_1]⟩, false, 100, -1⟩ := by
  have checked : (versioned (-1)).checkTransaction = .ok () := by decide
  refine ⟨checked, versioned_spends (-1), fun keeps => ?_⟩
  have version := ((versioned_spends (-1)).reads_iff (CTransaction.Checked.of_checkTransaction checked)).mp keeps.undo
  contradiction

end BitCrystal
