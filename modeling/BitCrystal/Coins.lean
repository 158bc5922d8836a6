import BitCrystal.Transaction
import Mathlib.Data.List.DropRight

namespace BitCrystal

open Data

/-! # Coins entries: the unspent outputs of one transaction -/

/-- Undo information for one input: the output it spent and, when that was the
last unspent output of its transaction, the metadata of the entry as well. -/
structure CTxInUndo where
  txout : CTxOut
  fCoinBase : Bool
  nHeight : Int
  nVersion : Int32
deriving DecidableEq

abbrev CTxUndo := List CTxInUndo

abbrev CBlockUndo := List CTxUndo

structure CCoins where
  fCoinBase : Bool
  vout : List CTxOut
  nHeight : Int
  nVersion : Int32
deriving DecidableEq

namespace CCoins

/-- `CCoins()`. -/
def empty : CCoins := ⟨false, [], 0, 0⟩

/-- `CCoins(tx, nHeight)`. -/
def ofTransaction (tx : CTransaction) (nHeight : Int) : CCoins :=
  ⟨tx.isCoinBase, tx.vout, nHeight, tx.nVersion⟩

/-- Cleanup: remove spent outputs at the end of vout. -/
def cleanup (coins : CCoins) : CCoins :=
  { coins with vout := coins.vout.rdropWhile CTxOut.isNull }

/-- The unspent output at a position. -/
def output (coins : CCoins) (nPos : Nat) : Option CTxOut :=
  coins.vout[nPos]?.filter (!CTxOut.isNull ·)

def isAvailable (coins : CCoins) (nPos : Nat) : Bool :=
  (coins.output nPos).isSome

def isPruned (coins : CCoins) : Bool :=
  coins.vout.all CTxOut.isNull

/-- Spend: mark an outpoint spent, and construct undo information. -/
def spend (coins : CCoins) (nPos : Nat) : Option (CCoins × CTxInUndo) :=
  match coins.output nPos with
  | none => none
  | some txout =>
      let spent := cleanup { coins with vout := coins.vout.set nPos CTxOut.null }
      let undo : CTxInUndo :=
        if spent.vout = [] then ⟨txout, coins.fCoinBase, coins.nHeight, coins.nVersion⟩
        else ⟨txout, false, 0, 0⟩
      some (spent, undo)

/-! ## Outputs -/

@[simp] theorem output_empty (nPos : Nat) : empty.output nPos = none := by
  simp [output, empty]

theorem output_eq_some {coins : CCoins} {nPos : Nat} {txout : CTxOut} :
    coins.output nPos = some txout ↔ coins.vout[nPos]? = some txout ∧ txout.isNull = false := by
  simp [output, Option.filter_eq_some_iff]

theorem output_ofTransaction {tx : CTransaction} (nHeight : Int)
    (unspent : ∀ txout ∈ tx.vout, txout.isNull = false) (nPos : Nat) :
    (ofTransaction tx nHeight).output nPos = tx.vout[nPos]? := by
  simp only [output, ofTransaction]
  cases found : tx.vout[nPos]? with
  | none => rfl
  | some txout => simp [unspent txout (List.mem_of_getElem? found)]

theorem isPruned_iff {coins : CCoins} :
    coins.isPruned = true ↔ ∀ nPos, coins.output nPos = none := by
  simp only [isPruned, List.all_eq_true]
  constructor
  · intro allNull nPos
    rw [Option.eq_none_iff_forall_ne_some]
    intro txout present
    obtain ⟨found, unspent⟩ := output_eq_some.mp present
    rw [allNull txout (List.mem_of_getElem? found)] at unspent
    contradiction
  · intro noOutput txout member
    obtain ⟨nPos, found⟩ := List.mem_iff_getElem?.mp member
    by_contra unspent
    have present := output_eq_some.mpr ⟨found, by simpa using unspent⟩
    rw [noOutput nPos] at present
    contradiction

@[simp] theorem isPruned_empty : empty.isPruned = true := rfl

theorem output_none_of_isPruned {coins : CCoins} (pruned : coins.isPruned = true) (nPos : Nat) :
    coins.output nPos = none :=
  isPruned_iff.mp pruned nPos

theorem not_isPruned_of_output {coins : CCoins} {nPos : Nat} {txout : CTxOut}
    (present : coins.output nPos = some txout) : coins.isPruned = false := by
  cases pruned : coins.isPruned with
  | false => rfl
  | true =>
      rw [output_none_of_isPruned pruned] at present
      contradiction

theorem exists_output_of_not_isPruned {coins : CCoins} (unspent : coins.isPruned = false) :
    ∃ nPos txout, coins.output nPos = some txout := by
  by_contra none
  have pruned : coins.isPruned = true := isPruned_iff.mpr fun nPos =>
    Option.eq_none_iff_forall_ne_some.mpr fun txout present => none ⟨nPos, txout, present⟩
  rw [pruned] at unspent
  contradiction

theorem isPruned_of_vout_nil {coins : CCoins} (noOutputs : coins.vout = []) :
    coins.isPruned = true := by
  simp [isPruned, noOutputs]

/-! ## Cleaned-up entries -/

/-- No spent output stands at the end of vout. -/
def Clean (coins : CCoins) : Prop :=
  ∀ last, coins.vout.getLast? = some last → last.isNull = false

theorem clean_empty : empty.Clean := by
  simp [Clean, empty]

private theorem getElem?_rdropWhile {α : Type} (p : α → Bool) (values : List α) (index : Nat) :
    (values.rdropWhile p)[index]?.filter (!p ·) = values[index]?.filter (!p ·) := by
  induction values using List.reverseRecOn with
  | nil => simp
  | append_singleton front last ih =>
      rw [List.rdropWhile_concat]
      split
      · rename_i dropped
        rw [ih, List.getElem?_append]
        split
        · rfl
        · rename_i beyond
          have missing : front[index]? = none := List.getElem?_eq_none (by omega)
          rw [missing]
          cases place : index - front.length with
          | zero =>
              rw [List.getElem?_cons_zero, Option.filter_some]
              simp [dropped]
          | succ more => simp
      · rfl

@[simp] theorem output_cleanup (coins : CCoins) (nPos : Nat) :
    coins.cleanup.output nPos = coins.output nPos :=
  getElem?_rdropWhile CTxOut.isNull coins.vout nPos

theorem clean_cleanup (coins : CCoins) : coins.cleanup.Clean := by
  intro last found
  have nonempty : coins.cleanup.vout ≠ [] := by
    intro none
    simp [none] at found
  have lastEq : coins.cleanup.vout.getLast nonempty = last := by
    rw [List.getLast?_eq_some_getLast nonempty] at found
    exact Option.some.inj found
  have stopped := List.rdropWhile_last_not CTxOut.isNull coins.vout nonempty
  simp only [cleanup] at lastEq
  rw [lastEq] at stopped
  simpa using stopped

theorem Clean.vout_nil_iff {coins : CCoins} (clean : coins.Clean) :
    coins.vout = [] ↔ coins.isPruned = true := by
  constructor
  · exact isPruned_of_vout_nil
  · intro pruned
    cases found : coins.vout.getLast? with
    | none => exact List.getLast?_eq_none_iff.mp found
    | some last =>
        have unspent := clean last found
        rw [List.all_eq_true.mp pruned last (List.mem_of_getLast? found)] at unspent
        contradiction

theorem Clean.length_le {coins : CCoins} (clean : coins.Clean) {bound : Nat}
    (within : ∀ nPos txout, coins.output nPos = some txout → nPos < bound) : coins.vout.length ≤ bound := by
  cases found : coins.vout.getLast? with
  | none => simp [List.getLast?_eq_none_iff.mp found]
  | some last =>
      have nonempty : coins.vout ≠ [] := by
        intro none
        simp [none] at found
      have positive := List.length_pos_of_ne_nil nonempty
      have present : coins.output (coins.vout.length - 1) = some last :=
        output_eq_some.mpr ⟨by rw [← List.getLast?_eq_getElem?]; exact found, clean last found⟩
      have := within _ last present
      omega

/-- A cleaned-up entry whose unspent outputs are those of a transaction without
null outputs has exactly its vout. -/
theorem Clean.vout_eq {coins : CCoins} (clean : coins.Clean) {vout : List CTxOut}
    (same : ∀ nPos, coins.output nPos = vout[nPos]?) : coins.vout = vout := by
  have length : coins.vout.length ≤ vout.length := by
    apply clean.length_le
    intro nPos txout present
    rw [same] at present
    exact (List.getElem?_eq_some_iff.mp present).1
  apply List.ext_getElem?
  intro nPos
  by_cases within : nPos < vout.length
  · have present := same nPos
    rw [List.getElem?_eq_getElem within] at present ⊢
    exact (output_eq_some.mp present).1
  · rw [List.getElem?_eq_none (by omega), List.getElem?_eq_none (by omega)]

/-! ## Spending -/

/-- What spending an output does to the entry and what it records. -/
structure Spends (before : CCoins) (nPos : Nat) (after : CCoins) (undo : CTxInUndo) : Prop where
  txout : before.output nPos = some undo.txout
  output : ∀ other, after.output other = if other = nPos then none else before.output other
  clean : after.Clean
  size : after.vout.length ≤ before.vout.length
  metadata : after.fCoinBase = before.fCoinBase ∧ after.nHeight = before.nHeight ∧
    after.nVersion = before.nVersion
  last : after.isPruned = true →
    undo.fCoinBase = before.fCoinBase ∧ undo.nHeight = before.nHeight ∧
      undo.nVersion = before.nVersion
  notLast : after.isPruned = false → undo.nHeight = 0 ∧ undo.nVersion = 0

theorem spend_eq_some {coins after : CCoins} {nPos : Nat} {undo : CTxInUndo}
    (spent : coins.spend nPos = some (after, undo)) : Spends coins nPos after undo := by
  unfold spend at spent
  cases found : coins.output nPos with
  | none => simp [found] at spent
  | some txout =>
      simp only [found, Option.some.injEq, Prod.mk.injEq] at spent
      obtain ⟨rfl, rfl⟩ := spent
      have clean := clean_cleanup { coins with vout := coins.vout.set nPos CTxOut.null }
      refine ⟨?_, ?_, clean, ?_, ⟨rfl, rfl, rfl⟩, ?_, ?_⟩
      · split <;> exact found
      · intro other
        rw [output_cleanup]
        simp only [CCoins.output, List.getElem?_set]
        by_cases same : nPos = other
        · subst same
          simp only [if_true]
          split <;> simp
        · simp only [same, if_false, Ne.symm same]
      · have shorter := (List.rdropWhile_prefix CTxOut.isNull (coins.vout.set nPos CTxOut.null)).length_le
        rwa [List.length_set] at shorter
      · intro pruned
        rw [if_pos (clean.vout_nil_iff.mpr pruned)]
        exact ⟨rfl, rfl, rfl⟩
      · intro unspent
        rw [if_neg]
        · exact ⟨rfl, rfl⟩
        · intro noOutputs
          rw [isPruned_of_vout_nil noOutputs] at unspent
          contradiction

end CCoins

end BitCrystal
