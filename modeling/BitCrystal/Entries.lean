import BitCrystal.ConnectBlock
import Mathlib.Logic.Function.Basic

namespace BitCrystal

open Data

/-! # What a coins view says about each transaction -/

/-- The unspent outputs of a transaction and the metadata kept with them. -/
@[ext] structure Entry where
  outputs : Nat → Option CTxOut
  fCoinBase : Bool
  nHeight : Int
  nVersion : Int32

def Entry.onDisk (entry : Entry) : Entry :=
  { entry with nVersion := diskVersion entry.nVersion }

namespace CCoins

def entry (coins : CCoins) : Option Entry :=
  if coins.isPruned then none
  else some ⟨coins.output, coins.fCoinBase, coins.nHeight, coins.nVersion⟩

@[simp] theorem entry_empty : empty.entry = none := rfl

theorem entry_eq_none_iff {coins : CCoins} : coins.entry = none ↔ coins.isPruned = true := by
  unfold entry
  split <;> simp_all

theorem entry_of_unspent {coins : CCoins} (unspent : coins.isPruned = false) :
    coins.entry = some ⟨coins.output, coins.fCoinBase, coins.nHeight, coins.nVersion⟩ := by
  simp [entry, unspent]

theorem entry_eq_some_iff {coins : CCoins} {entry : Entry} :
    coins.entry = some entry ↔ coins.isPruned = false ∧ coins.output = entry.outputs ∧
      coins.fCoinBase = entry.fCoinBase ∧ coins.nHeight = entry.nHeight ∧
      coins.nVersion = entry.nVersion := by
  unfold CCoins.entry
  split
  · simp_all
  · simp_all [Entry.ext_iff]

theorem entry_outputs (coins : CCoins) (nPos : Nat) :
    coins.entry.bind (·.outputs nPos) = coins.output nPos := by
  cases pruned : coins.isPruned with
  | true => rw [entry_eq_none_iff.mpr pruned, output_none_of_isPruned pruned]; rfl
  | false => rw [entry_of_unspent pruned]; rfl

/-- What the database gives back for an entry: BatchWrite erases pruned ones. -/
def reload [PubKeys] (coins : CCoins) : Option CCoins :=
  if coins.isPruned then none else (unserialize coins.serialize).map Prod.fst

theorem Storable.reload_exists [PubKeys] {coins : CCoins} (storable : coins.Storable)
    (unspent : coins.isPruned = false) :
    ∃ stored, coins.reload = some stored ∧ OnDisk coins stored := by
  obtain ⟨stored, reads, onDisk⟩ := storable.onDisk_exists unspent
  refine ⟨stored, ?_, onDisk⟩
  rw [reload, if_neg (by simp [unspent]), reads.whole]
  rfl

theorem OnDisk.entry {coins stored : CCoins} (onDisk : OnDisk coins stored)
    (unspent : coins.isPruned = false) : stored.entry = coins.entry.map Entry.onDisk := by
  obtain ⟨nPos, txout, found⟩ := exists_output_of_not_isPruned unspent
  have kept : stored.isPruned = false := not_isPruned_of_output ((onDisk.output nPos).trans found)
  rw [entry_of_unspent kept, entry_of_unspent unspent]
  simp [Entry.onDisk, funext onDisk.output, onDisk.fCoinBase, onDisk.nHeight, onDisk.nVersion]

theorem OnDisk.storable {coins stored : CCoins} (onDisk : OnDisk coins stored)
    (storable : coins.Storable) : stored.Storable := by
  refine ⟨fun nPos txout present => ?_, ?_, ?_⟩
  · rw [onDisk.output] at present
    exact storable.outputs nPos txout present
  · rw [onDisk.nHeight]
    exact storable.height
  · apply onDisk.clean.length_le
    intro nPos txout present
    rw [onDisk.output] at present
    obtain ⟨found, _⟩ := output_eq_some.mp present
    exact Nat.lt_of_lt_of_le (List.getElem?_eq_some_iff.mp found).1 storable.size

end CCoins

namespace CoinsView

/-- The map from txids to unspent outputs, height, coinbase flag and version. -/
def entry (view : CoinsView) (txid : UInt256) : Option Entry :=
  (view.coins txid).bind CCoins.entry

@[simp] theorem entry_setBestBlock (view : CoinsView) (pindex : Option UInt256) :
    (view.setBestBlock pindex).entry = view.entry := rfl

theorem entry_setCoins (view : CoinsView) (txid : UInt256) (coins : CCoins) :
    (view.setCoins txid coins).entry = Function.update view.entry txid coins.entry := by
  funext other
  by_cases same : other = txid
  · subst same
    simp [entry]
  · simp [entry, setCoins_other view coins same, same]

theorem entry_of_coins {view : CoinsView} {txid : UInt256} {coins : CCoins}
    (found : view.coins txid = some coins) : view.entry txid = coins.entry := by
  simp [entry, found]

theorem entry_getD (view : CoinsView) (txid : UInt256) :
    ((view.coins txid).getD CCoins.empty).entry = view.entry txid := by
  cases found : view.coins txid <;> simp [entry, found]

theorem outputAt_eq_entry (view : CoinsView) (txid : UInt256) (nPos : Nat) :
    view.outputAt (txid, nPos) = (view.entry txid).bind (·.outputs nPos) := by
  cases found : view.coins txid with
  | none => simp [outputAt, entry, found]
  | some coins => simpa [outputAt, entry, found] using (coins.entry_outputs nPos).symm

theorem outputAt_setCoins (view : CoinsView) (txid : UInt256) (coins : CCoins) (nPos : Nat) :
    (view.setCoins txid coins).outputAt (txid, nPos) = coins.output nPos := by
  simp [outputAt]

theorem outputAt_setCoins_other (view : CoinsView) {txid : UInt256} (coins : CCoins)
    {place : UInt256 × Nat} (different : place.1 ≠ txid) :
    (view.setCoins txid coins).outputAt place = view.outputAt place := by
  simp only [outputAt, setCoins_other view coins different]

theorem hasUnspent_iff {view : CoinsView} {txid : UInt256} :
    view.hasUnspent txid = true ↔ ∃ entry, view.entry txid = some entry := by
  cases found : view.coins txid with
  | none => simp [hasUnspent, entry, found]
  | some coins =>
      cases pruned : coins.isPruned with
      | true => simp [hasUnspent, entry, found, CCoins.entry_eq_none_iff.mpr pruned, pruned]
      | false => simp [hasUnspent, entry, found, CCoins.entry_of_unspent pruned, pruned]

theorem hasUnspent_eq_false_iff {view : CoinsView} {txid : UInt256} :
    view.hasUnspent txid = false ↔ view.entry txid = none := by
  rw [← Bool.not_eq_true, hasUnspent_iff]
  cases view.entry txid <;> simp

theorem entry_eq_none_iff {view : CoinsView} {txid : UInt256} :
    view.entry txid = none ↔ ∀ nPos, view.outputAt (txid, nPos) = none := by
  constructor
  · intro missing nPos
    rw [outputAt_eq_entry, missing]
    rfl
  · intro spent
    cases found : view.coins txid with
    | none => simp [entry, found]
    | some coins =>
        rw [entry_of_coins found, CCoins.entry_eq_none_iff, CCoins.isPruned_iff]
        intro nPos
        simpa [outputAt, found] using spent nPos

/-- The view after everything in it has been written to the database and read back. -/
def reload [PubKeys] (view : CoinsView) : CoinsView :=
  { view with coins := fun txid => (view.coins txid).bind CCoins.reload }

/-! ## Views of the chain -/

def Each (view : CoinsView) (property : CCoins → Prop) : Prop :=
  ∀ txid coins, view.coins txid = some coins → property coins

theorem Each.setCoins {view : CoinsView} {property : CCoins → Prop} (each : view.Each property)
    {txid : UInt256} {coins : CCoins} (holds : property coins) :
    (view.setCoins txid coins).Each property := by
  intro other found entry
  by_cases same : other = txid
  · subst same
    rw [setCoins_same] at entry
    cases entry
    exact holds
  · rw [setCoins_other view coins same] at entry
    exact each other found entry

/-- The views that connecting blocks leads to: every entry that has an unspent
output was made by a transaction of a block above the genesis block. -/
def WellFormed (view : CoinsView) : Prop :=
  view.Each fun coins => coins.isPruned = false → coins.Storable ∧ coins.nHeight ≠ 0

def Clean (view : CoinsView) : Prop :=
  view.Each CCoins.Clean

def VersionsNonneg (view : CoinsView) : Prop :=
  view.Each fun coins => 0 ≤ coins.nVersion.toInt

theorem WellFormed.setBestBlock {view : CoinsView} (wellFormed : view.WellFormed)
    (pindex : Option UInt256) : (view.setBestBlock pindex).WellFormed :=
  wellFormed

theorem WellFormed.entry_reload [PubKeys] {view : CoinsView} (wellFormed : view.WellFormed)
    (txid : UInt256) : view.reload.entry txid = (view.entry txid).map Entry.onDisk := by
  cases found : view.coins txid with
  | none => simp [entry, reload, found]
  | some coins =>
      cases pruned : coins.isPruned with
      | true =>
          simp [entry, reload, found, CCoins.entry_eq_none_iff.mpr pruned, CCoins.reload, pruned]
      | false =>
          obtain ⟨stored, restored, onDisk⟩ := (wellFormed txid coins found pruned).1.reload_exists pruned
          simpa [entry, reload, found, restored] using onDisk.entry pruned

theorem WellFormed.reload_coins [PubKeys] {view : CoinsView} (wellFormed : view.WellFormed)
    {txid : UInt256} {stored : CCoins} (found : view.reload.coins txid = some stored) :
    ∃ coins, view.coins txid = some coins ∧ coins.isPruned = false ∧ CCoins.OnDisk coins stored := by
  obtain ⟨coins, entry, restored⟩ := Option.bind_eq_some_iff.mp found
  cases pruned : coins.isPruned with
  | true => simp [CCoins.reload, pruned] at restored
  | false =>
      obtain ⟨read, same, onDisk⟩ := (wellFormed txid coins entry pruned).1.reload_exists pruned
      rw [same] at restored
      cases restored
      exact ⟨coins, entry, pruned, onDisk⟩

theorem WellFormed.clean_reload [PubKeys] {view : CoinsView} (wellFormed : view.WellFormed) :
    view.reload.Clean := by
  intro txid stored found
  obtain ⟨coins, _, _, onDisk⟩ := wellFormed.reload_coins found
  exact onDisk.clean

theorem WellFormed.outputAt_reload [PubKeys] {view : CoinsView} (wellFormed : view.WellFormed)
    (place : UInt256 × Nat) : view.reload.outputAt place = view.outputAt place := by
  obtain ⟨txid, nPos⟩ := place
  rw [outputAt_eq_entry, wellFormed.entry_reload, outputAt_eq_entry]
  cases view.entry txid <;> rfl

theorem WellFormed.reload [PubKeys] {view : CoinsView} (wellFormed : view.WellFormed) :
    view.reload.WellFormed := by
  intro txid stored found _
  obtain ⟨coins, entry, unspent, onDisk⟩ := wellFormed.reload_coins found
  obtain ⟨storable, height⟩ := wellFormed txid coins entry unspent
  exact ⟨onDisk.storable storable, by rw [onDisk.nHeight]; exact height⟩

theorem WellFormed.versionsNonneg_reload [PubKeys] {view : CoinsView}
    (wellFormed : view.WellFormed) : view.reload.VersionsNonneg := by
  intro txid stored found
  obtain ⟨coins, _, _, onDisk⟩ := wellFormed.reload_coins found
  rw [onDisk.nVersion]
  exact diskVersion_nonneg coins.nVersion

end CoinsView

end BitCrystal
