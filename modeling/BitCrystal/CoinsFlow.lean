import BitCrystal.Disconnect
import BitCrystal.MempoolRuns

namespace BitCrystal

open Data

/-! # Where the outputs of a view come from and where they go -/

section

variable [Hashing] {occurring : Set CTransaction}

def Known (occurring : Set CTransaction) (place : UInt256 × Nat) : Prop :=
  ∃ tx ∈ occurring, tx.Checked ∧ tx.getHash = place.1 ∧ place.2 < tx.vout.length

theorem CTransaction.vout_eq_of_hash (collisionFree : CTxMemPool.CollisionFree occurring)
    {tx other : CTransaction} (checked : tx.Checked) (first : tx ∈ occurring) (second : other ∈ occurring)
    (same : tx.getHash = other.getHash) : tx.vin = other.vin ∧ tx.vout = other.vout := by
  have onWire := checked.onWire_eq (collisionFree tx first other second same)
  have inputs := congrArg CTransaction.vin onWire
  have outputs := congrArg CTransaction.vout onWire
  simp only [CTransaction.onWire_vin, CTransaction.onWire_vout] at inputs outputs
  exact ⟨inputs, outputs⟩

theorem Known.within (collisionFree : CTxMemPool.CollisionFree occurring) {place : UInt256 × Nat}
    (known : Known occurring place) {tx : CTransaction} (occurs : tx ∈ occurring)
    (same : tx.getHash = place.1) : place.2 < tx.vout.length := by
  obtain ⟨other, member, checked, hash, within⟩ := known
  rw [(CTransaction.vout_eq_of_hash collisionFree checked member occurs (hash.trans same.symm)).2] at within
  exact within

theorem Known.bounded {place : UInt256 × Nat} (known : Known occurring place) :
    place.2 < MAX_BLOCK_SIZE := by
  obtain ⟨tx, _, checked, _, within⟩ := known
  exact Nat.lt_of_lt_of_le within checked.storable.size

namespace CoinsView

/-- Every unspent output was made by a checked transaction. -/
def Genuine (occurring : Set CTransaction) (view : CoinsView) : Prop :=
  ∀ place txout, view.outputAt place = some txout → Known occurring place

end CoinsView

/-! ## Connecting transactions -/

omit [Hashing] in
theorem CTransaction.spendInputs_spends {inputs : List CTxIn} {before after : CoinsView} {undos : CTxUndo}
    (run : CTransaction.spendInputs inputs before = .ok (after, undos)) :
    ∀ txin ∈ inputs, ∃ txout, before.outputAt txin.prevout.place = some txout := by
  induction inputs generalizing before undos with
  | nil => simp
  | cons first rest ih =>
      obtain ⟨coins, spent, undo, vprevout, found, step, remaining, rfl⟩ := spendInputs_cons_eq_ok.mp run
      have spends := CCoins.spend_eq_some step
      intro txin member
      rcases List.mem_cons.mp member with rfl | later
      · exact ⟨undo.txout, by simp [CoinsView.outputAt, COutPoint.place, found, spends.txout]⟩
      · obtain ⟨txout, present⟩ := ih remaining txin later
        have single := spendInputs_outputAt (spendInputs_single found step) txin.prevout.place
        rw [present] at single
        split at single
        · contradiction
        · exact ⟨txout, single.symm⟩

/-- The transactions of a block, as CheckBlock lets them through. -/
def Occur (occurring : Set CTransaction) (entries : List (CTransaction × Option CTxUndo)) : Prop :=
  ∀ entry ∈ entries, entry.1 ∈ occurring ∧ entry.1.Checked

variable {nHeight : Int} {entries : List (CTransaction × Option CTxUndo)} {before after : CoinsView}

theorem CTransaction.Checked.known {tx : CTransaction} (checked : tx.Checked) (occurs : tx ∈ occurring)
    {nHeight : Int} {nPos : Nat} {txout : CTxOut}
    (present : (CCoins.ofTransaction tx nHeight).output nPos = some txout) :
    Known occurring (tx.getHash, nPos) := by
  rw [checked.storable.output] at present
  exact ⟨tx, occurs, checked, rfl, (List.getElem?_eq_some_iff.mp present).1⟩

theorem CoinsView.Genuine.spend {tx : CTransaction} {spent : CoinsView} {txundo : CTxUndo}
    (genuine : before.Genuine occurring) (occurs : tx ∈ occurring) (checked : tx.Checked)
    (inputs : CTransaction.spendInputs tx.spentInputs before = .ok (spent, txundo)) :
    (spent.setCoins tx.getHash (CCoins.ofTransaction tx nHeight)).Genuine occurring := by
  intro place txout present
  by_cases own : place.1 = tx.getHash
  · obtain ⟨txid, nPos⟩ := place
    obtain rfl : txid = tx.getHash := own
    rw [CoinsView.outputAt_setCoins] at present
    exact checked.known occurs present
  · rw [CoinsView.outputAt_setCoins_other spent _ own, CTransaction.spendInputs_outputAt inputs] at present
    split at present
    · contradiction
    · exact genuine place txout present

theorem Applied.genuine (applied : Applied nHeight entries before after) (occur : Occur occurring entries)
    (genuine : before.Genuine occurring) :
    after.Genuine occurring ∧
      ∀ entry ∈ entries, ∀ txin ∈ entry.1.spentInputs, Known occurring txin.prevout.place := by
  induction applied with
  | nil view => exact ⟨genuine, by simp⟩
  | @cons tx txundo kept rest before spent after inputs keeps remaining ih =>
      obtain ⟨occurs, checked⟩ := occur (tx, kept) List.mem_cons_self
      obtain ⟨last, others⟩ := ih (fun entry member => occur entry (List.mem_cons_of_mem _ member))
        (genuine.spend occurs checked inputs)
      refine ⟨last, fun entry member => ?_⟩
      rcases List.mem_cons.mp member with rfl | later
      · intro txin spends
        obtain ⟨txout, present⟩ := CTransaction.spendInputs_spends inputs txin spends
        exact genuine _ txout present
      · exact others entry later

theorem Applied.keeps (collisionFree : CTxMemPool.CollisionFree occurring)
    (applied : Applied nHeight entries before after) (occur : Occur occurring entries)
    (genuine : before.Genuine occurring) {place : UInt256 × Nat}
    (present : (before.outputAt place).isSome) (unspent : place ∉ spentPlaces (entries.map Prod.fst)) :
    (after.outputAt place).isSome := by
  induction applied with
  | nil view => exact present
  | @cons tx txundo kept rest before spent after inputs keeps remaining ih =>
      obtain ⟨occurs, checked⟩ := occur (tx, kept) List.mem_cons_self
      rw [List.map_cons, mem_spentPlaces_cons, not_or] at unspent
      refine ih (fun entry member => occur entry (List.mem_cons_of_mem _ member))
        (genuine.spend occurs checked inputs) ?_ unspent.2
      by_cases own : place.1 = tx.getHash
      · obtain ⟨txout, found⟩ := Option.isSome_iff_exists.mp present
        have within := (genuine place txout found).within collisionFree occurs own.symm
        obtain ⟨txid, nPos⟩ := place
        obtain rfl : txid = tx.getHash := own
        rw [CoinsView.outputAt_setCoins, checked.storable.output]
        simp [within]
      · rw [CoinsView.outputAt_setCoins_other spent _ own, CTransaction.spendInputs_outputAt inputs,
          if_neg unspent.1]
        exact present

/-- What a transaction makes is there unless a later one spends it. -/
theorem Applied.makes (collisionFree : CTxMemPool.CollisionFree occurring)
    (applied : Applied nHeight entries before after) (occur : Occur occurring entries)
    (genuine : before.Genuine occurring) {pre post : List CTransaction} {tx : CTransaction}
    (split : entries.map Prod.fst = pre ++ tx :: post) {nPos : Nat} (within : nPos < tx.vout.length)
    (unspent : (tx.getHash, nPos) ∉ spentPlaces post) : (after.outputAt (tx.getHash, nPos)).isSome := by
  induction applied generalizing pre with
  | nil view => simp at split
  | @cons first txundo kept rest before spent after inputs keeps remaining ih =>
      obtain ⟨occurs, checked⟩ := occur (first, kept) List.mem_cons_self
      have later : Occur occurring rest := fun entry member => occur entry (List.mem_cons_of_mem _ member)
      have next : (spent.setCoins first.getHash (CCoins.ofTransaction first nHeight)).Genuine occurring :=
        genuine.spend occurs checked inputs
      rw [List.map_cons] at split
      cases pre with
      | nil =>
          obtain ⟨rfl, names⟩ := List.cons.inj split
          refine remaining.keeps collisionFree later next ?_ (by rw [names]; exact unspent)
          rw [CoinsView.outputAt_setCoins, checked.storable.output]
          simp [within]
      | cons head pre =>
          obtain ⟨_, names⟩ := List.cons.inj split
          exact ih later next names

end

/-! ## Restoring inputs -/

namespace CCoins

variable {found : CCoins} {nPos : Nat} {undo : CTxInUndo}

theorem undoSpend_output (unspent : undo.txout.isNull = false)
    (expected : (undoSpend found nPos undo).2 = true) (other : Nat) :
    (undoSpend found nPos undo).1.output other =
      if other = nPos then some undo.txout else found.output other := by
  unfold undoSpend at expected ⊢
  by_cases recorded : undo.nHeight ≠ 0
  · simp only [if_pos recorded, Bool.and_eq_true] at expected ⊢
    rw [output_restore _ nPos unspent, output_none_of_isPruned expected.1]
    simp [output]
  · simp only [if_neg recorded]
    exact output_restore found nPos unspent other

theorem undoSpend_storable (storable : undo.Storable) (expected : (undoSpend found nPos undo).2 = true)
    (before : found.isPruned = false → found.Storable ∧ found.nHeight ≠ 0) (small : nPos < MAX_BLOCK_SIZE) :
    (undoSpend found nPos undo).1.Storable ∧ (undoSpend found nPos undo).1.nHeight ≠ 0 := by
  have outputs : ∀ other txout, (undoSpend found nPos undo).1.output other = some txout → txout.Storable := by
    intro other txout present
    rw [undoSpend_output storable.txout.not_isNull expected] at present
    split at present
    · cases present
      exact storable.txout
    · exact (before (not_isPruned_of_output present)).1.outputs other txout present
  unfold undoSpend at expected outputs ⊢
  by_cases recorded : undo.nHeight ≠ 0
  · simp only [if_pos recorded] at expected outputs ⊢
    refine ⟨⟨outputs, storable.height, ?_⟩, recorded⟩
    simp only [CCoins.restore, List.length_set, List.length_append, List.length_replicate, List.length_nil]
    omega
  · simp only [if_neg recorded, Bool.and_eq_true, Bool.not_eq_true'] at expected outputs ⊢
    obtain ⟨earlier, height⟩ := before expected.1
    refine ⟨⟨outputs, earlier.height, ?_⟩, height⟩
    have size := earlier.size
    simp only [CCoins.restore, List.length_set, List.length_append, List.length_replicate]
    omega

end CCoins

/-- An input whose undo data can be put back. -/
def Restorable (input : CTxIn × CTxInUndo) : Prop :=
  input.2.Storable ∧ input.1.prevout.n.toNat < MAX_BLOCK_SIZE

theorem disconnectInputs_outputAt {inputs : List (CTxIn × CTxInUndo)} {s : CoinsView × Bool}
    (restorable : ∀ input ∈ inputs, Restorable input) (clean : (inputs.foldr disconnectInput s).2 = true)
    (place : UInt256 × Nat) :
    ((s.1.outputAt place).isSome → ((inputs.foldr disconnectInput s).1.outputAt place).isSome) ∧
      (((inputs.foldr disconnectInput s).1.outputAt place).isSome →
        (s.1.outputAt place).isSome ∨ ∃ input ∈ inputs, place = input.1.prevout.place) := by
  induction inputs with
  | nil => exact ⟨id, Or.inl⟩
  | cons input rest ih =>
      obtain ⟨txin, undo⟩ := input
      rw [List.foldr_cons, disconnectInput_eq, Bool.and_eq_true] at clean
      obtain ⟨kept, old⟩ := ih (fun other member => restorable other (List.mem_cons_of_mem _ member)) clean.1
      have storable := (restorable _ List.mem_cons_self).1
      rw [List.foldr_cons, disconnectInput_eq]
      dsimp only
      generalize rest.foldr disconnectInput s = reached at *
      have output := CCoins.undoSpend_output storable.txout.not_isNull clean.2
      have step : ((reached.1.setCoins txin.prevout.hash
          (CCoins.undoSpend ((reached.1.coins txin.prevout.hash).getD CCoins.empty)
            txin.prevout.n.toNat undo).1).outputAt place) =
          if place = txin.prevout.place then some undo.txout else reached.1.outputAt place := by
        obtain ⟨txid, nPos⟩ := place
        by_cases same : txid = txin.prevout.hash
        · subst same
          rw [CoinsView.outputAt_setCoins, output]
          cases found : reached.1.coins txin.prevout.hash <;>
            simp [CoinsView.outputAt, COutPoint.place, found, CCoins.output, CCoins.empty]
        · rw [CoinsView.outputAt_setCoins_other _ _ same, if_neg]
          intro both
          exact same (congrArg Prod.fst both)
      rw [step]
      constructor
      · intro present
        split
        · rfl
        · exact kept present
      · intro present
        split at present
        · rename_i own
          exact Or.inr ⟨_, List.mem_cons_self, own⟩
        · refine (old present).imp_right fun restored => ?_
          obtain ⟨other, member, own⟩ := restored
          exact ⟨other, List.mem_cons_of_mem _ member, own⟩

theorem disconnectInputs_wellFormed {inputs : List (CTxIn × CTxInUndo)} {s : CoinsView × Bool}
    (restorable : ∀ input ∈ inputs, Restorable input) (clean : (inputs.foldr disconnectInput s).2 = true)
    (wellFormed : s.1.WellFormed) : (inputs.foldr disconnectInput s).1.WellFormed := by
  induction inputs with
  | nil => exact wellFormed
  | cons input rest ih =>
      obtain ⟨storable, small⟩ := restorable input List.mem_cons_self
      rw [List.foldr_cons, disconnectInput_eq, Bool.and_eq_true] at clean
      have reached := ih (fun other member => restorable other (List.mem_cons_of_mem _ member)) clean.1
      rw [List.foldr_cons, disconnectInput_eq]
      refine reached.setCoins fun _ => CCoins.undoSpend_storable storable clean.2 ?_ small
      intro unspent
      cases found : (rest.foldr disconnectInput s).1.coins input.1.prevout.hash with
      | none => simp [found, CCoins.isPruned, CCoins.empty] at unspent
      | some coins =>
          rw [found] at unspent
          exact reached _ coins found unspent

/-! ## Disconnecting transactions -/

section

variable [Hashing] {occurring : Set CTransaction} {nHeight : Int} {view restored : CoinsView}

theorem disconnectTransaction_flow {tx : CTransaction} {txundo : Option CTxUndo} {fClean : Bool}
    (run : disconnectTransaction nHeight (tx, txundo) (view, fClean) = .ok (restored, true))
    (undos : ∀ vprevout, txundo = some vprevout → ∀ undo ∈ vprevout, undo.Storable)
    (known : txundo ≠ none → ∀ txin ∈ tx.vin, Known occurring txin.prevout.place)
    (wellFormed : view.WellFormed) (genuine : view.Genuine occurring) :
    restored.WellFormed ∧ restored.Genuine occurring ∧ ∀ place, place.1 ≠ tx.getHash →
      (view.outputAt place).isSome → (restored.outputAt place).isSome := by
  have emptied : (view.setCoins tx.getHash CCoins.empty).WellFormed :=
    wellFormed.setCoins (by simp [CCoins.isPruned, CCoins.empty])
  have others : ∀ place txout, (view.setCoins tx.getHash CCoins.empty).outputAt place = some txout →
      place.1 ≠ tx.getHash ∧ view.outputAt place = some txout := by
    intro place txout present
    by_cases own : place.1 = tx.getHash
    · obtain ⟨txid, nPos⟩ := place
      obtain rfl : txid = tx.getHash := own
      rw [CoinsView.outputAt_setCoins] at present
      simp [CCoins.output, CCoins.empty] at present
    · rw [CoinsView.outputAt_setCoins_other view _ own] at present
      exact ⟨own, present⟩
  cases txundo with
  | none =>
      simp only [disconnectTransaction, Except.ok.injEq, Prod.mk.injEq] at run
      obtain ⟨rfl, -⟩ := run
      refine ⟨emptied, fun place txout present => genuine place txout (others place txout present).2, ?_⟩
      intro place own present
      rw [CoinsView.outputAt_setCoins_other view _ own]
      exact present
  | some vprevout =>
      simp only [disconnectTransaction] at run
      split at run
      · rename_i length
        generalize start : (view.setCoins tx.getHash CCoins.empty, _) = s at run
        rw [Except.ok.injEq] at run
        have restorable : ∀ input ∈ tx.vin.zip vprevout, Restorable input := by
          intro input member
          obtain ⟨inVin, inUndo⟩ := List.of_mem_zip member
          exact ⟨undos vprevout rfl input.2 inUndo, (known (by simp) input.1 inVin).bounded⟩
        have clean : ((tx.vin.zip vprevout).foldr disconnectInput s).2 = true := by rw [run]
        have flow := disconnectInputs_outputAt restorable clean
        have kept := disconnectInputs_wellFormed restorable clean (by rw [← start]; exact emptied)
        rw [run] at kept flow
        refine ⟨kept, ?_, ?_⟩
        · intro place txout present
          cases (flow place).2 (by rw [present]; rfl) with
          | inl before =>
              rw [← start] at before
              obtain ⟨old, found⟩ := Option.isSome_iff_exists.mp before
              exact genuine place old (others place old found).2
          | inr input =>
              obtain ⟨input, member, rfl⟩ := input
              exact known (by simp) input.1 (List.of_mem_zip member).1
        · intro place own present
          apply (flow place).1
          rw [← start, CoinsView.outputAt_setCoins_other view _ own]
          exact present
      · contradiction

theorem disconnectTransactions_flow {entries : List (CTransaction × Option CTxUndo)}
    (run : entries.foldrM (disconnectTransaction nHeight) (view, true) = .ok (restored, true))
    (undos : ∀ entry ∈ entries, ∀ vprevout, entry.2 = some vprevout → ∀ undo ∈ vprevout, undo.Storable)
    (known : ∀ entry ∈ entries, entry.2 ≠ none → ∀ txin ∈ entry.1.vin, Known occurring txin.prevout.place)
    (wellFormed : view.WellFormed) (genuine : view.Genuine occurring) :
    restored.WellFormed ∧ restored.Genuine occurring ∧
      ∀ place, (∀ entry ∈ entries, place.1 ≠ entry.1.getHash) →
        (view.outputAt place).isSome → (restored.outputAt place).isSome := by
  induction entries generalizing restored with
  | nil =>
      cases run
      exact ⟨wellFormed, genuine, fun _ _ present => present⟩
  | cons entry rest ih =>
      obtain ⟨tx, txundo⟩ := entry
      rw [List.foldrM_cons, bind_eq_ok] at run
      obtain ⟨⟨reached, fClean⟩, first, step⟩ := run
      obtain ⟨rfl, -⟩ := disconnectTransaction_flag step
      obtain ⟨kept, made, stays⟩ := ih first
        (fun other member => undos other (List.mem_cons_of_mem _ member))
        (fun other member => known other (List.mem_cons_of_mem _ member))
      obtain ⟨last, madeLast, staysLast⟩ := disconnectTransaction_flow step
        (undos _ List.mem_cons_self) (known _ List.mem_cons_self) kept made
      refine ⟨last, madeLast, fun place other present => ?_⟩
      exact staysLast place (other _ List.mem_cons_self)
        (stays place (fun entry member => other entry (List.mem_cons_of_mem _ member)) present)

/-- What the undo files hold can be put back. -/
def UndoStorable [PubKeys] (undoFiles : CDiskBlockPos → Bytes) : Prop :=
  ∀ pos prev blockundo, CBlockUndo.readFromDisk (undoFiles pos) prev = some blockundo →
    ∀ txundo ∈ blockundo, ∀ undo ∈ txundo, undo.Storable

/-- The inputs of a connected block; its first transaction is the coinbase. -/
def CBlock.InputsKnown (occurring : Set CTransaction) (block : CBlock) : Prop :=
  ∀ tx ∈ block.vtx.tail, ∀ txin ∈ tx.vin, Known occurring txin.prevout.place

theorem disconnectBlock_flow [PubKeys] {block : CBlock} {pindex : CBlockIndex}
    {undoFiles : CDiskBlockPos → Bytes} (run : block.disconnectBlock pindex undoFiles view = .ok (restored, true))
    (undos : UndoStorable undoFiles) (known : block.InputsKnown occurring)
    (wellFormed : view.WellFormed) (genuine : view.Genuine occurring) :
    restored.WellFormed ∧ restored.Genuine occurring ∧
      ∀ place, (∀ tx ∈ block.vtx, place.1 ≠ tx.getHash) →
        (view.outputAt place).isSome → (restored.outputAt place).isSome := by
  simp only [CBlock.disconnectBlock, bind_eq_ok, expect_eq_ok, pure_eq_ok, Prod.mk.injEq, Prod.exists] at run
  obtain ⟨_, _, pos, _, prev, _, blockUndo, read, _, _, last, fClean, loop, rfl, rfl⟩ := run
  have flow := disconnectTransactions_flow loop (by
    intro entry member vprevout some
    have inUndo := (List.of_mem_zip member).2
    rw [some] at inUndo
    have recorded : vprevout ∈ blockUndo := by simpa using inUndo
    exact undos pos prev blockUndo read vprevout recorded) (by
    intro entry member some
    cases shape : block.vtx with
    | nil => simp [shape] at member
    | cons coinbase rest =>
        rw [shape, List.zip_cons_cons] at member
        rcases List.mem_cons.mp member with rfl | later
        · exact absurd rfl some
        · exact known entry.1 (by rw [shape]; exact (List.of_mem_zip later).1)) wellFormed genuine
  obtain ⟨kept, made, stays⟩ := flow
  refine ⟨kept, made, fun place other present => ?_⟩
  exact stays place (fun entry member => other entry.1 (List.of_mem_zip member).1) present

end

/-! ## Connecting a block -/

structure Flows [Hashing] (occurring : Set CTransaction) (txs : List CTransaction)
    (view connected : CoinsView) : Prop where
  wellFormed : connected.WellFormed
  genuine : connected.Genuine occurring
  checked : ∀ tx ∈ txs, tx ∈ occurring ∧ tx.Checked
  keeps : ∀ place, (view.outputAt place).isSome → place ∉ spentPlaces txs →
    (connected.outputAt place).isSome
  makes : ∀ pre tx post nPos, txs = pre ++ tx :: post → nPos < tx.vout.length →
    (tx.getHash, nPos) ∉ spentPlaces post → (connected.outputAt (tx.getHash, nPos)).isSome

section

variable [Hashing] {occurring : Set CTransaction} {txs more : List CTransaction}
  {view connected last : CoinsView}

theorem Flows.nothing (wellFormed : view.WellFormed) (genuine : view.Genuine occurring) :
    Flows occurring [] view view := by
  refine ⟨wellFormed, genuine, by simp, fun _ present _ => present, ?_⟩
  intro pre tx post nPos split
  simp at split

theorem Flows.trans (first : Flows occurring txs view connected)
    (second : Flows occurring more connected last) : Flows occurring (txs ++ more) view last := by
  refine ⟨second.wellFormed, second.genuine, ?_, ?_, ?_⟩
  · intro tx member
    cases List.mem_append.mp member with
    | inl early => exact first.checked tx early
    | inr late => exact second.checked tx late
  · intro place present unspent
    rw [spentPlaces_append, List.mem_append, not_or] at unspent
    exact second.keeps place (first.keeps place present unspent.1) unspent.2
  · intro pre tx post nPos split within unspent
    rcases List.append_eq_append_iff.mp split with ⟨middle, front, back⟩ | ⟨middle, front, back⟩
    · exact second.makes middle tx post nPos back within unspent
    · cases middle with
      | nil => exact second.makes [] tx post nPos back.symm within unspent
      | cons head rest =>
          rw [List.cons_append, List.cons.injEq] at back
          obtain ⟨rfl, rfl⟩ := back
          rw [spentPlaces_append, List.mem_append, not_or] at unspent
          exact second.keeps _ (first.makes pre tx rest nPos front within unspent.1) unspent.2

variable [ScriptMachine] {settings : Settings} {mapBlockIndex : BlockMap} {pindex : CBlockIndex}
  {block : CBlock}

theorem connectBlock_flows (collisionFree : CTxMemPool.CollisionFree occurring)
    (occurs : ∀ tx ∈ block.vtx, tx ∈ occurring) (notGenesis : block.getHash ≠ hashGenesisBlock)
    (height : 0 < pindex.nHeight ∧ pindex.nHeight < 2 ^ 31) {blockundo : Option CBlockUndo}
    (connect : block.connectBlock settings mapBlockIndex pindex view false = .ok (connected, blockundo))
    (wellFormed : view.WellFormed) (genuine : view.Genuine occurring) :
    Flows occurring block.vtx view connected ∧ block.InputsKnown occurring ∧
      ∃ vtxundo, blockundo = some vtxundo ∧ vtxundo.Storable := by
  rcases CBlock.connectBlock_cases connect with ⟨genesis, _⟩ | ⟨last, connects, undone, rfl⟩
  · exact absurd genesis notGenesis
  · obtain ⟨coinbase, entries, recorded⟩ := connects.recorded
    obtain ⟨kept, storable⟩ := connects.undo_storable recorded height wellFormed
    have names : ((coinbase, none) :: entries).map Prod.fst = block.vtx := recorded.vtx.symm
    have checked : ∀ tx ∈ block.vtx, tx ∈ occurring ∧ tx.Checked :=
      fun tx member => ⟨occurs tx member, connects.checked.transactions tx member⟩
    have occur : Occur occurring ((coinbase, none) :: entries) :=
      fun entry member => checked entry.1 (names ▸ List.mem_map_of_mem member)
    obtain ⟨made, known⟩ := recorded.applied.genuine occur genuine
    refine ⟨⟨kept, made, checked, ?_, ?_⟩, ?_, last.vtxundo, undone, storable⟩
    · intro place present unspent
      exact recorded.applied.keeps collisionFree occur genuine present (by rw [names]; exact unspent)
    · intro pre tx post nPos split within unspent
      exact recorded.applied.makes collisionFree occur genuine (names.trans split) within unspent
    · intro tx member txin input
      have other := connects.checked.coinBaseOnly tx member
      rw [recorded.vtx, List.tail_cons] at member
      obtain ⟨entry, inEntries, rfl⟩ := List.mem_map.mp member
      refine known entry (List.mem_cons_of_mem _ inEntries) txin ?_
      simpa [CTransaction.spentInputs, other] using input

end

end BitCrystal
