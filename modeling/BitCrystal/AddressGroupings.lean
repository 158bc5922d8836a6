import BitCrystal.Data.Components
import BitCrystal.WalletBalances

namespace BitCrystal

open Data

/-! # Groups of addresses -/

namespace TxWallet

variable [ScriptDigests] (w : TxWallet)

/-- The owner of the output that an input spends, if it is the wallet's own. -/
def inputAddress (txin : CTxIn) : Option CTxDestination :=
  (w.prevOut txin).bind fun prev => if w.isMine prev then extractDestination prev.scriptPubKey else none

def inputAddresses (wtx : CWalletTx) : List CTxDestination := wtx.vin.filterMap w.inputAddress

def changeAddresses (wtx : CWalletTx) : List CTxDestination :=
  (wtx.vout.filter w.isChange).filterMap fun txout => extractDestination txout.scriptPubKey

def ownAddresses (wtx : CWalletTx) : List CTxDestination :=
  (wtx.vout.filter w.isMine).filterMap fun txout => extractDestination txout.scriptPubKey

/-- All input addresses of a transaction with each other, and its change with them. -/
def grouping (wtx : CWalletTx) : Finset CTxDestination :=
  (w.inputAddresses wtx ++ if w.inputAddresses wtx = [] then [] else w.changeAddresses wtx).toFinset

/-- The groups of one transaction, with lone addresses by themselves. -/
def txGroupings (wtx : CWalletTx) : List (Finset CTxDestination) :=
  (if w.grouping wtx = ∅ then [] else [w.grouping wtx]) ++ (w.ownAddresses wtx).map fun address => {address}

/-- The set `groupings`. -/
def groupings : List (Finset CTxDestination) := (w.entries.flatMap fun entry => w.txGroupings entry.2).dedup

/-- GetAddressGroupings, with the order of the sets of addresses and the addresses on the heap. -/
def getAddressGroupings (order : List (Finset CTxDestination) → List (Finset CTxDestination))
    (allocator : Allocator) : Finset (Finset CTxDestination) :=
  ((order w.groupings).foldl (Groups.merge allocator) .empty).result

/-! ## Chains of transactions -/

def SpendsFrom (wtx : CWalletTx) (address : CTxDestination) : Prop :=
  ∃ txin ∈ wtx.vin, ∃ prev, w.prevOut txin = some prev ∧ w.isMine prev = true ∧
    extractDestination prev.scriptPubKey = some address

def ChangesTo (wtx : CWalletTx) (address : CTxDestination) : Prop :=
  ∃ txout ∈ wtx.vout, w.isChange txout = true ∧ extractDestination txout.scriptPubKey = some address

def OwnsOutput (wtx : CWalletTx) (address : CTxDestination) : Prop :=
  ∃ txout ∈ wtx.vout, w.isMine txout = true ∧ extractDestination txout.scriptPubKey = some address

/-- A transaction of the wallet spends from both, or from one with change to the other. -/
def Joined (first second : CTxDestination) : Prop :=
  ∃ entry ∈ w.entries, (w.SpendsFrom entry.2 first ∧ w.SpendsFrom entry.2 second) ∨
    (w.SpendsFrom entry.2 first ∧ w.ChangesTo entry.2 second) ∨
      (w.ChangesTo entry.2 first ∧ w.SpendsFrom entry.2 second)

def Connected : CTxDestination → CTxDestination → Prop := Relation.ReflTransGen w.Joined

/-- The owner of a spent input, change linked to one, or the owner of an output. -/
def Appears (address : CTxDestination) : Prop :=
  ∃ entry ∈ w.entries, w.SpendsFrom entry.2 address ∨
    ((∃ other, w.SpendsFrom entry.2 other) ∧ w.ChangesTo entry.2 address) ∨ w.OwnsOutput entry.2 address

variable {w}

theorem mem_inputAddresses {wtx : CWalletTx} {address : CTxDestination} :
    address ∈ w.inputAddresses wtx ↔ w.SpendsFrom wtx address := by
  rw [inputAddresses, List.mem_filterMap, SpendsFrom]
  refine exists_congr fun txin => and_congr_right fun _ => ?_
  rw [inputAddress, Option.bind_eq_some_iff]
  refine exists_congr fun prev => and_congr_right fun _ => ?_
  split <;> simp_all

theorem mem_changeAddresses {wtx : CWalletTx} {address : CTxDestination} :
    address ∈ w.changeAddresses wtx ↔ w.ChangesTo wtx address := by
  simp only [changeAddresses, ChangesTo, List.mem_filterMap, List.mem_filter, and_assoc]

theorem mem_ownAddresses {wtx : CWalletTx} {address : CTxDestination} :
    address ∈ w.ownAddresses wtx ↔ w.OwnsOutput wtx address := by
  simp only [ownAddresses, OwnsOutput, List.mem_filterMap, List.mem_filter, and_assoc]

theorem mem_grouping {wtx : CWalletTx} {address : CTxDestination} : address ∈ w.grouping wtx ↔
    w.SpendsFrom wtx address ∨ ((∃ other, w.SpendsFrom wtx other) ∧ w.ChangesTo wtx address) := by
  have someInput : w.inputAddresses wtx ≠ [] ↔ ∃ other, w.SpendsFrom wtx other := by
    rw [List.ne_nil_iff_exists_cons]
    constructor
    · rintro ⟨other, rest, inputs⟩
      exact ⟨other, mem_inputAddresses.mp (inputs ▸ List.mem_cons_self)⟩
    · rintro ⟨other, spends⟩
      exact List.ne_nil_iff_exists_cons.mp (List.ne_nil_of_mem (mem_inputAddresses.mpr spends))
  rw [grouping, List.mem_toFinset, List.mem_append, mem_inputAddresses]
  refine or_congr_right ?_
  split
  · rename_i none
    simp [← someInput, none]
  · rename_i inputs
    rw [mem_changeAddresses, and_iff_right (someInput.mp inputs)]

theorem mem_txGroupings {wtx : CWalletTx} {group : Finset CTxDestination} : group ∈ w.txGroupings wtx ↔
    (group = w.grouping wtx ∧ group.Nonempty) ∨ ∃ address, w.OwnsOutput wtx address ∧ group = {address} := by
  rw [txGroupings, List.mem_append, List.mem_map]
  refine or_congr ?_ (exists_congr fun address => and_congr mem_ownAddresses eq_comm)
  split
  · rename_i none
    simp only [List.not_mem_nil, false_iff, not_and, none]
    rintro rfl
    exact Finset.not_nonempty_empty
  · rename_i filled
    rw [List.mem_singleton, iff_self_and]
    rintro rfl
    exact Finset.nonempty_iff_ne_empty.mpr filled

theorem mem_groupings {group : Finset CTxDestination} :
    group ∈ w.groupings ↔ ∃ entry ∈ w.entries, group ∈ w.txGroupings entry.2 := by
  rw [groupings, List.mem_dedup, List.mem_flatMap]

theorem groupings_nonempty {group : Finset CTxDestination} (member : group ∈ w.groupings) : group.Nonempty := by
  obtain ⟨entry, -, inside⟩ := mem_groupings.mp member
  rcases mem_txGroupings.mp inside with ⟨-, filled⟩ | ⟨address, -, rfl⟩
  · exact filled
  · exact Finset.singleton_nonempty address

theorem appears_iff {address : CTxDestination} :
    (∃ group ∈ w.groupings, address ∈ group) ↔ w.Appears address := by
  constructor
  · rintro ⟨group, member, inside⟩
    obtain ⟨entry, known, made⟩ := mem_groupings.mp member
    rcases mem_txGroupings.mp made with ⟨rfl, -⟩ | ⟨owner, owns, rfl⟩
    · rcases mem_grouping.mp inside with spends | changes
      · exact ⟨entry, known, .inl spends⟩
      · exact ⟨entry, known, .inr (.inl changes)⟩
    · rw [Finset.mem_singleton.mp inside]
      exact ⟨entry, known, .inr (.inr owns)⟩
  · rintro ⟨entry, known, appears⟩
    have together (inside : address ∈ w.grouping entry.2) : ∃ group ∈ w.groupings, address ∈ group :=
      ⟨_, mem_groupings.mpr ⟨entry, known, mem_txGroupings.mpr (.inl ⟨rfl, address, inside⟩)⟩, inside⟩
    rcases appears with spends | changes | owns
    · exact together (mem_grouping.mpr (.inl spends))
    · exact together (mem_grouping.mpr (.inr changes))
    · refine ⟨{address}, mem_groupings.mpr ⟨entry, known, ?_⟩, Finset.mem_singleton_self address⟩
      exact mem_txGroupings.mpr (.inr ⟨address, owns, rfl⟩)

theorem connected_of_grouping {entry : UInt256 × CWalletTx} (known : entry ∈ w.entries)
    {first second : CTxDestination} (left : first ∈ w.grouping entry.2) (right : second ∈ w.grouping entry.2) :
    w.Connected first second := by
  obtain ⟨input, spends⟩ : ∃ input, w.SpendsFrom entry.2 input := by
    rcases mem_grouping.mp left with spends | ⟨other, -⟩
    · exact ⟨first, spends⟩
    · exact other
  have forth : w.Joined first input := by
    rcases mem_grouping.mp left with spending | ⟨-, changes⟩
    · exact ⟨entry, known, .inl ⟨spending, spends⟩⟩
    · exact ⟨entry, known, .inr (.inr ⟨changes, spends⟩)⟩
  have back : w.Joined input second := by
    rcases mem_grouping.mp right with spending | ⟨-, changes⟩
    · exact ⟨entry, known, .inl ⟨spends, spending⟩⟩
    · exact ⟨entry, known, .inr (.inl ⟨spends, changes⟩)⟩
  exact .tail (.single forth) back

theorem linked_iff {first second : CTxDestination} : Linked w.groupings first second ↔ w.Connected first second := by
  constructor
  · intro linked
    induction linked with
    | refl => exact .refl
    | tail _ step ih =>
        obtain ⟨group, member, left, right⟩ := step
        obtain ⟨entry, known, made⟩ := mem_groupings.mp member
        rcases mem_txGroupings.mp made with ⟨rfl, -⟩ | ⟨owner, -, rfl⟩
        · exact ih.trans (connected_of_grouping known left right)
        · rw [Finset.mem_singleton.mp left] at ih
          rw [Finset.mem_singleton.mp right]
          exact ih
  · intro connected
    induction connected with
    | refl => exact .refl
    | tail _ step ih =>
        rename_i middle last _
        obtain ⟨entry, known, joined⟩ := step
        have both : middle ∈ w.grouping entry.2 ∧ last ∈ w.grouping entry.2 := by
          rw [mem_grouping, mem_grouping]
          rcases joined with ⟨left, right⟩ | ⟨left, right⟩ | ⟨left, right⟩
          · exact ⟨.inl left, .inl right⟩
          · exact ⟨.inl left, .inr ⟨⟨_, left⟩, right⟩⟩
          · exact ⟨.inr ⟨⟨_, right⟩, left⟩, .inl right⟩
        refine .tail ih ⟨w.grouping entry.2, ?_, both⟩
        exact mem_groupings.mpr ⟨entry, known, mem_txGroupings.mpr (.inl ⟨rfl, middle, both.1⟩)⟩

/-- GetAddressGroupings returns the connected components of the addresses that appear in the wallet. -/
theorem getAddressGroupings_components (w : TxWallet)
    {order : List (Finset CTxDestination) → List (Finset CTxDestination)}
    (order_perm : ∀ groups, (order groups).Perm groups) (allocator : Allocator) :
    (∀ group ∈ w.getAddressGroupings order allocator, group.Nonempty) ∧
    (∀ first ∈ w.getAddressGroupings order allocator, ∀ second ∈ w.getAddressGroupings order allocator,
      first ≠ second → Disjoint first second) ∧
    (∀ address, (∃ group ∈ w.getAddressGroupings order allocator, address ∈ group) ↔ w.Appears address) ∧
    ∀ first second, (∃ group ∈ w.getAddressGroupings order allocator, first ∈ group ∧ second ∈ group) ↔
      w.Appears first ∧ w.Connected first second := by
  have same := order_perm w.groupings
  have merged := Groups.Inv.foldl allocator .empty fun group (member : group ∈ order w.groupings) =>
    groupings_nonempty (same.mem_iff.mp member)
  rw [List.nil_append] at merged
  obtain ⟨nonempty, disjoint, union, together⟩ := merged.components
  have known (address : CTxDestination) : (∃ group ∈ order w.groupings, address ∈ group) ↔ w.Appears address := by
    simp only [same.mem_iff]
    exact appears_iff
  have linked (first second : CTxDestination) : Linked (order w.groupings) first second ↔ w.Connected first second :=
    Iff.trans ⟨.mono same.subset, .mono same.symm.subset⟩ linked_iff
  refine ⟨nonempty, disjoint, fun address => (union address).trans (known address), fun first second => ?_⟩
  exact (together first second).trans (and_congr (known first) (linked first second))

end TxWallet

namespace Sample

/-- The first place above those in use. -/
def bump : Allocator where
  place used := used.sup id + 1
  fresh _ member := Nat.not_succ_le_self _ (Finset.le_sup (f := id) member)

end Sample

open Sample in
theorem TxWallet.getAddressGroupings_components_payer :
    (∃ group ∈ payerWallet.getAddressGroupings id bump, .CKeyID 1 ∈ group ∧ .CKeyID 2 ∈ group) ↔
      payerWallet.Appears (.CKeyID 1) ∧ payerWallet.Connected (.CKeyID 1) (.CKeyID 2) :=
  (getAddressGroupings_components payerWallet List.Perm.refl bump).2.2.2 (.CKeyID 1) (.CKeyID 2)

end BitCrystal
