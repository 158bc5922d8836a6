import BitCrystal.Overwrite

namespace BitCrystal

open Data

/-! # Disconnecting a block undoes connecting it -/

/-! ## Restoring one output -/

namespace CCoins

theorem output_restore (coins : CCoins) (n : Nat) {txout : CTxOut} (unspent : txout.isNull = false)
    (other : Nat) :
    (coins.restore n txout).output other = if other = n then some txout else coins.output other := by
  simp only [CCoins.output, restore, List.getElem?_set, List.length_append, List.length_replicate]
  by_cases same : n = other
  · subst same
    rw [if_pos rfl, if_pos (by omega), if_pos rfl]
    simp [Option.filter_some, unspent]
  · rw [if_neg same, if_neg (Ne.symm same), List.getElem?_append]
    split
    · rfl
    · rename_i beyond
      rw [List.getElem?_eq_none (by omega : coins.vout.length ≤ other), List.getElem?_replicate]
      split <;> rfl

theorem Clean.restore {coins : CCoins} (clean : coins.Clean) (n : Nat) {txout : CTxOut}
    (unspent : txout.isNull = false) : (coins.restore n txout).Clean := by
  intro last found
  simp only [CCoins.restore, List.getLast?_eq_getElem?, List.length_set, List.length_append,
    List.length_replicate, List.getElem?_set] at found
  split at found
  · split at found
    · cases found
      exact unspent
    · contradiction
  · rename_i different
    have padding : n + 1 - coins.vout.length = 0 := by omega
    rw [padding, List.replicate_zero, List.append_nil, Nat.add_zero] at found
    exact clean last (by rw [List.getLast?_eq_getElem?]; exact found)

theorem isPruned_restore (coins : CCoins) (n : Nat) {txout : CTxOut} (unspent : txout.isNull = false) :
    (coins.restore n txout).isPruned = false := by
  have present : (coins.restore n txout).output n = some txout := by
    rw [output_restore coins n unspent, if_pos rfl]
  exact not_isPruned_of_output present

theorem entry_restore (coins : CCoins) (n : Nat) {txout : CTxOut} (unspent : txout.isNull = false) :
    (coins.restore n txout).entry = some ⟨fun other => if other = n then some txout else coins.output other,
      coins.fCoinBase, coins.nHeight, coins.nVersion⟩ := by
  rw [entry_of_unspent (isPruned_restore coins n unspent), funext (output_restore coins n unspent)]
  rfl

/-- What restoring an input makes of the entry it finds, and whether it finds what it expects. -/
def undoSpend (found : CCoins) (nPos : Nat) (undo : CTxInUndo) : CCoins × Bool :=
  let base : CCoins :=
    if undo.nHeight ≠ 0 then ⟨undo.fCoinBase, [], undo.nHeight, undo.nVersion⟩ else found
  let expected := if undo.nHeight ≠ 0 then found.isPruned else !found.isPruned
  (base.restore nPos undo.txout, expected && !base.isAvailable nPos)

/-- Undoing a spend gives back the entry from before, without complaint, exactly
on the entry that the spend left. -/
theorem Spends.undoSpend_iff {before after : CCoins} {nPos : Nat} {undo : CTxInUndo}
    (spends : Spends before nPos after undo) (height : before.nHeight ≠ 0) (found : CCoins) :
    ((undoSpend found nPos undo).2 = true ∧ (undoSpend found nPos undo).1.entry = before.entry) ↔
      found.entry = after.entry := by
  obtain ⟨stored, unspent⟩ := output_eq_some.mp spends.txout
  have beforeEntry := entry_of_unspent (not_isPruned_of_output spends.txout)
  have put : (fun other => if other = nPos then some undo.txout else after.output other) = before.output := by
    funext other
    by_cases same : other = nPos
    · simp [same, spends.txout]
    · simp [same, spends.output]
  cases pruned : after.isPruned with
  | true =>
      -- the last output: the undo data has the metadata and the entry must be gone
      obtain ⟨coinBase, nHeight, nVersion⟩ := spends.last pruned
      have recorded : undo.nHeight ≠ 0 := nHeight ▸ height
      have gone : after.output = fun _ => none := funext (output_none_of_isPruned pruned)
      have restored : (undoSpend found nPos undo).1.entry = before.entry := by
        simp only [undoSpend, if_pos recorded]
        rw [entry_restore _ nPos unspent, beforeEntry, ← put, gone, coinBase, nHeight, nVersion]
        simp [CCoins.output]
      rw [and_iff_left restored, entry_eq_none_iff.mpr pruned, entry_eq_none_iff]
      simp [undoSpend, recorded, isAvailable, CCoins.output]
  | false =>
      obtain ⟨nHeight, _⟩ := spends.notLast pruned
      obtain ⟨coinBase, sameHeight, nVersion⟩ := spends.metadata
      have own : after.output nPos = none := by simp [spends.output]
      have result : undoSpend found nPos undo =
          (found.restore nPos undo.txout, !found.isPruned && !found.isAvailable nPos) := by
        simp [undoSpend, nHeight]
      rw [result, entry_restore _ nPos unspent, beforeEntry, entry_of_unspent pruned]
      simp only [Bool.and_eq_true, Bool.not_eq_true', entry_eq_some_iff, Option.some.injEq, Entry.mk.injEq,
        isAvailable, Option.isSome_eq_false_iff, Option.isNone_iff_eq_none]
      constructor
      · rintro ⟨⟨kept, free⟩, outputs, rest⟩
        refine ⟨kept, ?_, by rw [coinBase, sameHeight, nVersion]; exact rest⟩
        funext other
        by_cases same : other = nPos
        · rw [same, free, own]
        · have there := congrFun outputs other
          simp only [same, if_false] at there
          simp [spends.output, same, there]
      · rintro ⟨kept, outputs, rest⟩
        rw [outputs]
        exact ⟨⟨kept, own⟩, put, by rw [← coinBase, ← sameHeight, ← nVersion]; exact rest⟩

theorem Clean.undoSpend {found : CCoins} (clean : found.Clean) {nPos : Nat} {undo : CTxInUndo}
    (unspent : undo.txout.isNull = false) : (undoSpend found nPos undo).1.Clean := by
  simp only [CCoins.undoSpend]
  split
  · exact Clean.restore (by simp [Clean]) nPos unspent
  · exact clean.restore nPos unspent

end CCoins

/-! ## Restoring the inputs of a transaction -/

theorem disconnectInput_eq (txin : CTxIn) (undo : CTxInUndo) (s : CoinsView × Bool) :
    disconnectInput (txin, undo) s =
      let result := CCoins.undoSpend ((s.1.coins txin.prevout.hash).getD CCoins.empty)
        txin.prevout.n.toNat undo
      (s.1.setCoins txin.prevout.hash result.1, s.2 && result.2) := by
  simp only [disconnectInput, CCoins.undoSpend, Bool.and_assoc]


/-- Restoring the inputs in reverse gives back the view from before they were
spent, without complaint, exactly on the view that spending them left. -/
theorem disconnectInputs_iff {inputs : List CTxIn} {before after : CoinsView} {undos : CTxUndo}
    (run : CTransaction.spendInputs inputs before = .ok (after, undos)) (wellFormed : before.WellFormed)
    (s : CoinsView × Bool) :
    (((inputs.zip undos).foldr disconnectInput s).2 = true ∧
      ((inputs.zip undos).foldr disconnectInput s).1.entry = before.entry) ↔
        s.2 = true ∧ s.1.entry = after.entry := by
  induction inputs generalizing before undos with
  | nil => cases run; rfl
  | cons txin rest ih =>
      obtain ⟨coins, spent, undo, vprevout, found, step, remaining, rfl⟩ :=
        CTransaction.spendInputs_cons_eq_ok.mp run
      have spends := CCoins.spend_eq_some step
      have height := (wellFormed _ coins found (CCoins.not_isPruned_of_output spends.txout)).2
      have next := (CTransaction.spendInputs_wellFormed (CTransaction.spendInputs_single found step)
        wellFormed).1
      rw [← ih remaining next, List.zip_cons_cons, List.foldr_cons]
      generalize (rest.zip vprevout).foldr disconnectInput s = reached
      have undone := spends.undoSpend_iff height
        ((reached.1.coins txin.prevout.hash).getD CCoins.empty)
      rw [CoinsView.entry_getD] at undone
      rw [disconnectInput_eq]
      simp only [Bool.and_eq_true, CoinsView.entry_setCoins, Function.update_eq_iff, Function.eq_update_iff,
        CoinsView.entry_of_coins found, ← undone]
      constructor
      · rintro ⟨⟨flag, expected⟩, restored, others⟩
        exact ⟨flag, ⟨expected, restored⟩, others⟩
      · rintro ⟨flag, ⟨expected, restored⟩, others⟩
        exact ⟨⟨flag, expected⟩, restored, others⟩


theorem disconnectInputs_flag {inputs : List (CTxIn × CTxInUndo)} {s : CoinsView × Bool}
    (clean : (inputs.foldr disconnectInput s).2 = true) : s.2 = true := by
  induction inputs with
  | nil => exact clean
  | cons input rest ih =>
      rw [List.foldr_cons, disconnectInput_eq, Bool.and_eq_true] at clean
      exact ih clean.1

/-! ## Undoing transactions -/

section

variable [Hashing] {nHeight : Int} {entries : List (CTransaction × Option CTxUndo)}
  {before after view : CoinsView}

/-- On a trimmed view, the outputs that DisconnectBlock finds match those of the
transaction exactly when the view says so. -/
theorem outputs_match_iff (nHeight : Int) {tx : CTransaction} (storable : tx.Storable) (nonempty : tx.vout ≠ [])
    (clean : view.Clean) :
    (view.haveCoins tx.getHash = true ∧
      (view.coins tx.getHash).getD CCoins.empty = CCoins.ofTransaction tx nHeight) ↔
        view.entry tx.getHash = (CCoins.ofTransaction tx nHeight).entry := by
  have unspent : (CCoins.ofTransaction tx nHeight).isPruned = false := by
    obtain ⟨first, rest, shape⟩ := List.exists_cons_of_ne_nil nonempty
    have present : (CCoins.ofTransaction tx nHeight).output 0 = some first := by
      rw [storable.output, shape]
      rfl
    exact CCoins.not_isPruned_of_output present
  cases found : view.coins tx.getHash with
  | none => simp [CoinsView.haveCoins, CoinsView.entry, found, CCoins.entry_of_unspent unspent]
  | some coins =>
      rw [CoinsView.entry_of_coins found, CCoins.entry_of_unspent unspent, CCoins.entry_eq_some_iff]
      simp only [CoinsView.haveCoins, found, Option.isSome_some, Option.getD_some, true_and]
      constructor
      · intro same
        subst same
        exact ⟨unspent, rfl, rfl, rfl, rfl⟩
      · rintro ⟨_, outputs, coinBase, height, version⟩
        have vout : coins.vout = tx.vout := (clean _ coins found).vout_eq fun nPos => by
          rw [outputs, storable.output]
        cases coins
        simp_all [CCoins.ofTransaction]

/-- Undoing a transaction gives back the view from before it, without complaint,
exactly when it starts from the view that the transaction left and the
transaction had replaced nothing. -/
theorem disconnectTransaction_iff (nHeight : Int) {tx : CTransaction} (storable : tx.Storable) (nonempty : tx.vout ≠ [])
    {spent : CoinsView} {txundo : CTxUndo} {kept : Option CTxUndo}
    (inputs : CTransaction.spendInputs tx.spentInputs before = .ok (spent, txundo))
    (keeps : kept = if tx.isCoinBase then none else some txundo)
    (wellFormed : before.WellFormed) (clean : view.Clean) (fClean : Bool) :
    ∃ restored, disconnectTransaction nHeight (tx, kept) (view, fClean) = .ok restored ∧
      ((restored.2 = true ∧ restored.1.entry = before.entry) ↔
        (fClean = true ∧
          view.entry = (spent.setCoins tx.getHash (CCoins.ofTransaction tx nHeight)).entry ∧
          spent.entry tx.getHash = none)) := by
  have matched := outputs_match_iff nHeight storable nonempty clean
  have removed : ∀ flag : Bool, (flag = true ∧
      (view.setCoins tx.getHash CCoins.empty).entry = spent.entry) ↔
      (flag = true ∧ spent.entry tx.getHash = none ∧
        ∀ other, other ≠ tx.getHash → view.entry other = spent.entry other) := by
    intro flag
    rw [CoinsView.entry_setCoins, Function.update_eq_iff, CCoins.entry_empty]
    exact and_congr_right fun _ => and_congr_left fun _ => eq_comm
  have base : ((fClean && view.haveCoins tx.getHash &&
      (view.coins tx.getHash).getD CCoins.empty = CCoins.ofTransaction tx nHeight) = true ∧
        (view.setCoins tx.getHash CCoins.empty).entry = spent.entry) ↔
      (fClean = true ∧
        view.entry = (spent.setCoins tx.getHash (CCoins.ofTransaction tx nHeight)).entry ∧
        spent.entry tx.getHash = none) := by
    rw [removed, CoinsView.entry_setCoins, Function.eq_update_iff, ← matched]
    simp only [Bool.and_eq_true, decide_eq_true_eq]
    tauto
  cases coinBase : tx.isCoinBase with
  | true =>
      simp only [CTransaction.spentInputs, coinBase, if_true] at inputs keeps
      cases inputs
      subst keeps
      exact ⟨_, rfl, base⟩
  | false =>
      simp only [CTransaction.spentInputs, coinBase, Bool.false_eq_true, if_false] at inputs keeps
      subst keeps
      have length := CTransaction.spendInputs_length inputs
      refine ⟨_, by simp only [disconnectTransaction, if_pos length]; rfl, ?_⟩
      rw [disconnectInputs_iff inputs wellFormed]
      exact base

theorem disconnectTransaction_each {property : CCoins → Prop} {tx : CTransaction}
    {txundo : Option CTxUndo} {fClean : Bool} {restored : CoinsView × Bool}
    (run : disconnectTransaction nHeight (tx, txundo) (view, fClean) = .ok restored)
    (each : view.Each property) (empty : property CCoins.empty)
    (undoes : ∀ undos, txundo = some undos → ∀ undo ∈ undos, ∀ found nPos, property found →
      property (CCoins.undoSpend found nPos undo).1) : restored.1.Each property := by
  cases txundo with
  | none =>
      cases run
      exact each.setCoins empty
  | some vprevout =>
      simp only [disconnectTransaction] at run
      split at run
      · cases run
        have restores : ∀ inputs : List (CTxIn × CTxInUndo), (∀ input ∈ inputs, input.2 ∈ vprevout) →
            ∀ s : CoinsView × Bool, s.1.Each property →
              (inputs.foldr disconnectInput s).1.Each property := by
          intro inputs
          induction inputs with
          | nil => exact fun _ s each => each
          | cons input rest ih =>
              intro member s each
              have reached := ih (fun other inRest => member other (List.mem_cons_of_mem _ inRest)) s each
              rw [List.foldr_cons, disconnectInput_eq]
              apply reached.setCoins
              apply undoes vprevout rfl input.2 (member input List.mem_cons_self)
              cases found : (rest.foldr disconnectInput s).1.coins input.1.prevout.hash with
              | none => exact empty
              | some coins => exact reached _ coins found
        exact restores _ (fun input member => (List.of_mem_zip member).2) _ (each.setCoins empty)
      · contradiction

/-- No transaction of the list replaces an entry with unspent outputs. -/
def Fresh (nHeight : Int) (entries : List (CTransaction × Option CTxUndo)) (before : CoinsView) : Prop :=
  ∀ pre entry post reached spent txundo, entries = pre ++ entry :: post →
    Applied nHeight pre before reached →
      CTransaction.spendInputs entry.1.spentInputs reached = .ok (spent, txundo) →
        spent.entry entry.1.getHash = none

theorem fresh_cons {tx : CTransaction} {spent : CoinsView} {txundo : CTxUndo} {kept : Option CTxUndo}
    (inputs : CTransaction.spendInputs tx.spentInputs before = .ok (spent, txundo))
    (keeps : kept = if tx.isCoinBase then none else some txundo) :
    Fresh nHeight ((tx, kept) :: entries) before ↔
      spent.entry tx.getHash = none ∧
        Fresh nHeight entries (spent.setCoins tx.getHash (CCoins.ofTransaction tx nHeight)) := by
  constructor
  · intro fresh
    refine ⟨fresh [] (tx, kept) entries before spent txundo rfl (.nil before) inputs, ?_⟩
    intro pre entry post reached other undos split applied found
    exact fresh ((tx, kept) :: pre) entry post reached other undos (by rw [split]; rfl)
      (.cons inputs keeps applied) found
  · rintro ⟨own, fresh⟩ pre entry post reached other undos split applied found
    cases pre with
    | nil =>
        obtain ⟨rfl, _⟩ := List.cons.inj split
        cases applied
        rw [inputs] at found
        cases found
        exact own
    | cons first pre =>
        obtain ⟨rfl, rest⟩ := List.cons.inj split
        cases applied with
        | cons again _ remaining =>
            rw [inputs] at again
            cases again
            exact fresh pre entry post reached other undos rest remaining found

/-- Undoing a list of transactions gives back the view from before them, without
complaint, exactly when it starts from the view that they left and none of them
replaced anything. -/
theorem disconnectTransactions_iff (applied : Applied nHeight entries before after)
    (height : 0 < nHeight ∧ nHeight < 2 ^ 31)
    (fits : ∀ entry ∈ entries, entry.1.Storable ∧ entry.1.vout ≠ [])
    (wellFormed : before.WellFormed) (clean : view.Clean) :
    ∃ restored, entries.foldrM (disconnectTransaction nHeight) (view, true) = .ok restored ∧
      restored.1.Clean ∧
      ((restored.2 = true ∧ restored.1.entry = before.entry) ↔
        (view.entry = after.entry ∧ Fresh nHeight entries before)) := by
  induction applied with
  | nil last =>
      refine ⟨(view, true), rfl, clean, ?_⟩
      have nothing : Fresh nHeight [] last := by
        intro pre entry post _ _ _ split
        cases pre <;> contradiction
      simp [nothing]
  | @cons tx txundo kept rest before spent after inputs keeps remaining ih =>
      obtain ⟨storable, nonempty⟩ := fits (tx, kept) List.mem_cons_self
      obtain ⟨spentWellFormed, undos⟩ := CTransaction.spendInputs_wellFormed inputs wellFormed
      obtain ⟨reached, run, reachedClean, matches_⟩ :=
        ih (fun entry member => fits entry (List.mem_cons_of_mem _ member))
          (spentWellFormed.setCoins fun _ => storable.coins height)
      obtain ⟨restored, step, undone⟩ :=
        disconnectTransaction_iff nHeight storable nonempty inputs keeps wellFormed
          reachedClean reached.2
      refine ⟨restored, ?_, ?_, ?_⟩
      · rw [List.foldrM_cons, run, ok_bind]
        exact step
      · refine disconnectTransaction_each step reachedClean CCoins.clean_empty ?_
        intro vprevout some undo member found nPos cleanFound
        apply cleanFound.undoSpend
        rw [keeps] at some
        split at some
        · contradiction
        · cases some
          exact (undos undo member).txout.not_isNull
      · rw [undone, fresh_cons inputs keeps]
        tauto

theorem disconnectTransaction_flag {tx : CTransaction} {txundo : Option CTxUndo} {fClean : Bool}
    {restored : CoinsView}
    (run : disconnectTransaction nHeight (tx, txundo) (view, fClean) = .ok (restored, true)) :
    fClean = true ∧ view.coins tx.getHash = some (CCoins.ofTransaction tx nHeight) := by
  have flag : (fClean && view.haveCoins tx.getHash &&
      (view.coins tx.getHash).getD CCoins.empty = CCoins.ofTransaction tx nHeight) = true := by
    cases txundo with
    | none =>
        simp only [disconnectTransaction, Except.ok.injEq, Prod.mk.injEq] at run
        exact run.2
    | some vprevout =>
        simp only [disconnectTransaction] at run
        split at run
        · simp only [Except.ok.injEq] at run
          exact disconnectInputs_flag (s := (_, _)) (congrArg Prod.snd run)
        · contradiction
  simp only [Bool.and_eq_true, decide_eq_true_eq, CoinsView.haveCoins, Option.isSome_iff_exists] at flag
  obtain ⟨⟨clean, coins, found⟩, same⟩ := flag
  rw [found] at same
  exact ⟨clean, by rw [found, ← same]; rfl⟩

theorem disconnectTransactions_versions {restored : CoinsView}
    (run : entries.foldrM (disconnectTransaction nHeight) (view, true) = .ok (restored, true))
    (versions : view.VersionsNonneg)
    (undos : ∀ entry ∈ entries, ∀ txundo, entry.2 = some txundo → ∀ undo ∈ txundo,
      0 ≤ undo.nVersion.toInt) :
    restored.VersionsNonneg ∧ ∀ entry ∈ entries, 0 ≤ entry.1.nVersion.toInt := by
  induction entries generalizing restored with
  | nil =>
      cases run
      exact ⟨versions, by simp⟩
  | cons entry rest ih =>
      obtain ⟨tx, txundo⟩ := entry
      rw [List.foldrM_cons, bind_eq_ok] at run
      obtain ⟨⟨reached, fClean⟩, first, step⟩ := run
      obtain ⟨rfl, found⟩ := disconnectTransaction_flag step
      obtain ⟨nonneg, others⟩ := ih first fun other member => undos other (List.mem_cons_of_mem _ member)
      constructor
      · refine disconnectTransaction_each step nonneg (by decide) ?_
        intro vprevout some undo member coins nPos version
        simp only [CCoins.undoSpend, CCoins.restore]
        split
        · exact undos _ List.mem_cons_self vprevout some undo member
        · exact version
      · intro other member
        rcases List.mem_cons.mp member with rfl | member
        · exact nonneg _ _ found
        · exact others other member

theorem Applied.split {pre post : List (CTransaction × Option CTxUndo)}
    (applied : Applied nHeight (pre ++ post) before after) :
    ∃ reached, Applied nHeight pre before reached ∧ Applied nHeight post reached after := by
  induction pre generalizing before with
  | nil => exact ⟨before, .nil before, applied⟩
  | cons first rest ih =>
      cases applied with
      | cons inputs keeps remaining =>
          obtain ⟨reached, front, back⟩ := ih remaining
          exact ⟨reached, .cons inputs keeps front, back⟩

theorem Applied.fresh_iff (applied : Applied nHeight entries before after)
    (distinct : ((entries.map Prod.fst).map CTransaction.getHash).Nodup) :
    Fresh nHeight entries before ↔
      ∀ pre tx post, entries.map Prod.fst = pre ++ tx :: post →
        ∀ nPos, (before.outputAt (tx.getHash, nPos)).isSome →
          (tx.getHash, nPos) ∈ spentPlaces (pre ++ [tx]) := by
  have own : ∀ pre entry post reached spent txundo, entries = pre ++ entry :: post →
      Applied nHeight pre before reached →
        CTransaction.spendInputs entry.1.spentInputs reached = .ok (spent, txundo) →
          ∀ nPos, spent.outputAt (entry.1.getHash, nPos) =
            if (entry.1.getHash, nPos) ∈ spentPlaces (pre.map Prod.fst ++ [entry.1]) then none
            else before.outputAt (entry.1.getHash, nPos) := by
    intro pre entry post reached spent txundo split front inputs
    refine front.outputAt_own ?_ inputs
    rw [split, List.map_append, List.map_append, List.map_cons, List.map_cons] at distinct
    intro member
    exact (List.nodup_append.mp distinct).2.2 _ member _ List.mem_cons_self rfl
  constructor
  · intro fresh pre tx post names nPos unspent
    obtain ⟨front, back, split, frontNames, backNames⟩ := List.map_eq_append_iff.mp names
    obtain ⟨entry, rest, rfl, rfl, _⟩ := List.map_eq_cons_iff.mp backNames
    rw [split] at applied
    obtain ⟨reached, first, second⟩ := applied.split
    cases second with
    | @cons tx txundo kept rest _ spent _ inputs keeps remaining =>
        have pruned := fresh front (tx, kept) rest reached spent txundo split first inputs
        have gone := CoinsView.entry_eq_none_iff.mp pruned nPos
        rw [own front (tx, kept) rest reached spent txundo split first inputs, frontNames] at gone
        by_contra absent
        rw [if_neg absent] at gone
        simp [gone] at unspent
  · intro free pre entry post reached spent txundo split front inputs
    rw [CoinsView.entry_eq_none_iff]
    intro nPos
    rw [own pre entry post reached spent txundo split front inputs]
    split_ifs with member
    · rfl
    · rw [← Option.not_isSome_iff_eq_none]
      intro unspent
      exact member (free (pre.map Prod.fst) entry.1 (post.map Prod.fst) (by rw [split]; simp) nPos unspent)

/-! ## Versions -/

/-- No entry with an unspent output has a negative transaction version. -/
def CoinsView.UnspentVersionsNonneg (view : CoinsView) : Prop :=
  view.Each fun coins => coins.isPruned = false → 0 ≤ coins.nVersion.toInt

omit [Hashing] in
theorem CTransaction.spendInputs_versions {inputs : List CTxIn} {undos : CTxUndo}
    (run : CTransaction.spendInputs inputs before = .ok (after, undos))
    (versions : before.UnspentVersionsNonneg) :
    after.UnspentVersionsNonneg ∧ ∀ undo ∈ undos, 0 ≤ undo.nVersion.toInt := by
  induction inputs generalizing before undos with
  | nil =>
      cases run
      exact ⟨versions, by simp⟩
  | cons txin rest ih =>
      obtain ⟨coins, spent, undo, vprevout, found, step, remaining, rfl⟩ := spendInputs_cons_eq_ok.mp run
      have spends := CCoins.spend_eq_some step
      have version := versions _ coins found (CCoins.not_isPruned_of_output spends.txout)
      obtain ⟨kept, others⟩ := ih remaining
        (CoinsView.Each.setCoins versions fun _ => by rw [spends.metadata.2.2]; exact version)
      refine ⟨kept, fun other member => ?_⟩
      rcases List.mem_cons.mp member with rfl | member
      · cases pruned : spent.isPruned with
        | true => rw [(spends.last pruned).2.2]; exact version
        | false => rw [(spends.notLast pruned).2]; decide
      · exact others other member

theorem Applied.versions (applied : Applied nHeight entries before after)
    (versions : before.UnspentVersionsNonneg) (txs : ∀ entry ∈ entries, 0 ≤ entry.1.nVersion.toInt) :
    after.UnspentVersionsNonneg ∧
      ∀ entry ∈ entries, ∀ txundo, entry.2 = some txundo → ∀ undo ∈ txundo, 0 ≤ undo.nVersion.toInt := by
  induction applied with
  | nil view => exact ⟨versions, by simp⟩
  | @cons tx txundo kept rest before spent after inputs keeps remaining ih =>
      obtain ⟨spentVersions, undos⟩ := CTransaction.spendInputs_versions inputs versions
      obtain ⟨last, others⟩ := ih (CoinsView.Each.setCoins spentVersions fun _ => txs _ List.mem_cons_self)
        fun entry member => txs entry (List.mem_cons_of_mem _ member)
      refine ⟨last, fun entry member => ?_⟩
      rcases List.mem_cons.mp member with rfl | member
      · intro vprevout some
        rw [keeps] at some
        split at some
        · contradiction
        · cases some
          exact undos
      · exact others entry member

end

theorem CoinsView.VersionsNonneg.unspent {view restored : CoinsView} (versions : restored.VersionsNonneg)
    (same : restored.entry = view.entry) : view.UnspentVersionsNonneg := by
  intro txid coins found unspent
  have entry := congrFun same txid
  rw [CoinsView.entry_of_coins found, CCoins.entry_of_unspent unspent, CoinsView.entry,
    Option.bind_eq_some_iff] at entry
  obtain ⟨stored, inRestored, entry⟩ := entry
  have version : stored.nVersion = coins.nVersion := (CCoins.entry_eq_some_iff.mp entry).2.2.2.2
  rw [← version]
  exact versions txid stored inRestored

/-! ## Undoing a block -/

theorem CBlockIndex.getUndoPos_recordUndo (pindex : CBlockIndex) (nPos : UInt32) :
    (pindex.recordUndo nPos).getUndoPos = some ⟨pindex.nFile, nPos⟩ := by
  have bit : (pindex.recordUndo nPos).nStatus &&& BLOCK_HAVE_UNDO ≠ 0 := by
    intro none
    have four := congrArg (fun word => word.toBitVec.getLsbD 4) none
    simp [recordUndo, BLOCK_HAVE_UNDO, BLOCK_VALID_MASK, BLOCK_VALID_SCRIPTS] at four
  rw [getUndoPos, if_pos bit]
  rfl

/-- The undo data of a transaction as it is read back from the disk. -/
def diskEntry (entry : CTransaction × Option CTxUndo) : CTransaction × Option CTxUndo :=
  (entry.1, entry.2.map fun txundo => txundo.map CTxInUndo.onDisk)

theorem zip_onDisk {entries : List (CTransaction × Option CTxUndo)}
    (kept : ∀ entry ∈ entries, entry.2 ≠ none) :
    (entries.filterMap Prod.snd).length = entries.length ∧
      (entries.map Prod.fst).zip ((CBlockUndo.onDisk (entries.filterMap Prod.snd)).map some) =
        entries.map diskEntry := by
  induction entries with
  | nil => exact ⟨rfl, rfl⟩
  | cons entry rest ih =>
      obtain ⟨tx, txundo⟩ := entry
      obtain ⟨length, zipped⟩ := ih fun entry member => kept entry (List.mem_cons_of_mem _ member)
      cases txundo with
      | none => exact absurd rfl (kept (tx, none) List.mem_cons_self)
      | some txundo =>
          refine ⟨by simpa using length, ?_⟩
          simp only [List.filterMap_cons, CBlockUndo.onDisk, List.map_cons, List.zip_cons_cons]
          exact congrArg (diskEntry (tx, some txundo) :: ·) zipped

theorem diskEntry_eq_self {entry : CTransaction × Option CTxUndo}
    (versions : ∀ txundo, entry.2 = some txundo → ∀ undo ∈ txundo, 0 ≤ undo.nVersion.toInt) :
    diskEntry entry = entry := by
  obtain ⟨tx, txundo⟩ := entry
  cases txundo with
  | none => rfl
  | some txundo =>
      have same : txundo.map CTxInUndo.onDisk = txundo.map id := by
        apply List.map_congr_left
        intro undo member
        simp only [CTxInUndo.onDisk, diskVersion_eq_self_iff.mpr (versions txundo rfl undo member), id]
      simp only [diskEntry, Option.map_some, same, List.map_id]

theorem CoinsView.WellFormed.entry_reload_eq_self [PubKeys] {view : CoinsView}
    (wellFormed : view.WellFormed) (versions : view.UnspentVersionsNonneg) :
    view.reload.entry = view.entry := by
  funext txid
  rw [wellFormed.entry_reload]
  cases found : view.coins txid with
  | none => simp [entry, found]
  | some coins =>
      rw [entry_of_coins found]
      cases pruned : coins.isPruned with
      | true => rw [CCoins.entry_eq_none_iff.mpr pruned]; rfl
      | false =>
          rw [CCoins.entry_of_unspent pruned]
          simp [Entry.onDisk, diskVersion_eq_self_iff.mpr (versions _ coins found pruned)]

section

variable [Hashing] [ScriptMachine] {settings : Settings} {mapBlockIndex : BlockMap}
  {pindex : CBlockIndex} {block : CBlock} {view connected : CoinsView} {last : ConnectState}

/-- The transactions of a connected block with their undo data: the coinbase comes first and
is the only one without. -/
structure CBlock.Recorded (block : CBlock) (pindex : CBlockIndex) (view : CoinsView)
    (last : ConnectState) (coinbase : CTransaction) (entries : List (CTransaction × Option CTxUndo)) :
    Prop where
  vtx : block.vtx = coinbase :: entries.map Prod.fst
  applied : Applied pindex.nHeight ((coinbase, none) :: entries) view last.view
  vtxundo : last.vtxundo = entries.filterMap Prod.snd
  kept : ∀ entry ∈ entries, entry.2 ≠ none

theorem CBlock.Connects.recorded (connects : block.Connects settings mapBlockIndex pindex view last) :
    ∃ coinbase entries, block.Recorded pindex view last coinbase entries := by
  obtain ⟨all, names, applied, vtxundo, coinBases⟩ := connectLoop_applied connects.loop
  cases all with
  | nil => exact absurd names.symm connects.checked.vtx_ne_nil
  | cons first entries =>
      obtain ⟨coinbase, kept⟩ := first
      have isCoinBase : coinbase.isCoinBase = true := by
        have first := connects.checked.coinBaseFirst
        rwa [hasCoinBaseFirst, ← names] at first
      have none : kept = none := (coinBases _ List.mem_cons_self).mpr isCoinBase
      subst none
      refine ⟨coinbase, entries, names.symm, applied, by simpa using vtxundo, ?_⟩
      intro entry member absent
      have others := connects.checked.coinBaseOnly entry.1 (by
        rw [← names]
        exact List.mem_map_of_mem member)
      rw [(coinBases entry (List.mem_cons_of_mem _ member)).mp absent] at others
      contradiction

theorem CBlock.Connects.storable (connects : block.Connects settings mapBlockIndex pindex view last) :
    ∀ tx ∈ block.vtx, tx.Storable ∧ tx.vout ≠ [] := by
  intro tx member
  have checked := connects.checked.transactions tx member
  exact ⟨checked.storable, checked.vout_ne_nil⟩

variable {coinbase : CTransaction} {entries : List (CTransaction × Option CTxUndo)}

theorem CBlock.Connects.undo_storable (connects : block.Connects settings mapBlockIndex pindex view last)
    (recorded : block.Recorded pindex view last coinbase entries)
    (height : 0 < pindex.nHeight ∧ pindex.nHeight < 2 ^ 31) (wellFormed : view.WellFormed) :
    last.view.WellFormed ∧ CBlockUndo.Storable last.vtxundo := by
  have inBlock : ∀ entry ∈ (coinbase, none) :: entries, entry.1 ∈ block.vtx := by
    intro entry member
    rw [recorded.vtx]
    exact List.mem_map_of_mem (f := Prod.fst) member
  obtain ⟨kept, undos⟩ := recorded.applied.wellFormed height
    (fun entry member => (connects.storable entry.1 (inBlock entry member)).1) wellFormed
  have each : ∀ txundo ∈ entries.filterMap Prod.snd,
      txundo.length ≤ MAX_SIZE ∧ ∀ undo ∈ txundo, undo.Storable := by
    intro txundo member
    obtain ⟨entry, inEntries, some⟩ := List.mem_filterMap.mp member
    have inAll := List.mem_cons_of_mem (coinbase, (none : Option CTxUndo)) inEntries
    obtain ⟨length, storables⟩ := undos entry inAll txundo some
    have short := (connects.checked.transactions entry.1 (inBlock entry inAll)).vin_length_le
    exact ⟨by rw [length]; exact Nat.le_trans short (by decide), storables⟩
  refine ⟨kept, ?_, ?_, ?_⟩
  · have count := connects.checked.count_le
    rw [recorded.vtx, List.length_cons, List.length_map] at count
    rw [recorded.vtxundo, (zip_onDisk recorded.kept).1]
    exact Nat.le_trans (Nat.le_of_succ_le count) (by decide)
  · rw [recorded.vtxundo]
    exact fun txundo member => (each txundo member).1
  · rw [recorded.vtxundo]
    exact fun txundo member => (each txundo member).2

theorem connectBlock_wellFormed (wellFormed : view.WellFormed)
    (height : 0 < pindex.nHeight ∧ pindex.nHeight < 2 ^ 31) {fJustCheck : Bool} {blockundo : Option CBlockUndo}
    (connect : block.connectBlock settings mapBlockIndex pindex view fJustCheck = .ok (connected, blockundo)) :
    connected.WellFormed := by
  rcases CBlock.connectBlock_cases connect with ⟨_, _, rfl⟩ | ⟨last, connects, _, rfl⟩
  · exact wellFormed
  · obtain ⟨coinbase, entries, recorded⟩ := connects.recorded
    have kept := (connects.undo_storable recorded height wellFormed).1
    split
    · exact kept
    · exact kept

end

section

variable [Hashing] [PubKeys] {pindex : CBlockIndex} {block : CBlock} {view : CoinsView}
  {last : ConnectState} {coinbase : CTransaction} {entries : List (CTransaction × Option CTxUndo)}

theorem CBlock.Recorded.disconnectBlock_eq (recorded : block.Recorded pindex view last coinbase entries)
    (storable : CBlockUndo.Storable last.vtxundo) {prev : UInt256} (parent : pindex.pprev = some prev)
    {nPos : UInt32} {undoFiles : CDiskBlockPos → Bytes} {rest : Bytes}
    (written : undoFiles ⟨pindex.nFile, nPos⟩ = CBlockUndo.writeToDisk last.vtxundo prev ++ rest)
    {coins : CoinsView} (best : coins.best = pindex.phashBlock) :
    block.disconnectBlock (pindex.recordUndo nPos) undoFiles coins =
      ((((coinbase, none) :: entries).map diskEntry).foldrM (disconnectTransaction pindex.nHeight)
        (coins, true) >>= fun s => .ok (s.1.setBestBlock pindex.pprev, s.2)) := by
  obtain ⟨length, zipped⟩ := zip_onDisk recorded.kept
  have read := storable.readFromDisk_writeToDisk prev rest
  have pairs : block.vtx.zip (none :: (CBlockUndo.onDisk last.vtxundo).map some) =
      ((coinbase, none) :: entries).map diskEntry := by
    rw [recorded.vtx, recorded.vtxundo, List.zip_cons_cons, zipped]
    rfl
  have count : (CBlockUndo.onDisk last.vtxundo).length + 1 = block.vtx.length := by
    rw [recorded.vtx, recorded.vtxundo, CBlockUndo.onDisk, List.length_map, length]
    simp
  simp only [disconnectBlock, CBlockIndex.getUndoPos_recordUndo, expect, ok_bind, written]
  rw [require_of (show (pindex.recordUndo nPos).phashBlock = coins.best from best.symm), ok_bind,
    show (pindex.recordUndo nPos).pprev = some prev from parent]
  simp only [ok_bind, read, require_of count, pairs]
  rw [parent]
  rfl

/-- DisconnectBlock, on the coins and the undo data as they are read back from the
disk, succeeds without complaint and leaves the view of before. -/
def CBlock.Undoes (block : CBlock) (pindex : CBlockIndex) (undoFiles : CDiskBlockPos → Bytes)
    (view connected : CoinsView) : Prop :=
  ∃ restored, block.disconnectBlock pindex undoFiles connected.reload = .ok (restored, true) ∧
    restored.entry = view.entry ∧ restored.best = view.best

theorem CBlock.Recorded.versions {connected restored : CoinsView}
    (recorded : block.Recorded pindex view last coinbase entries) (wellFormed : connected.WellFormed)
    (run : (((coinbase, none) :: entries).map diskEntry).foldrM (disconnectTransaction pindex.nHeight)
      (connected.reload, true) = .ok (restored, true))
    (same : restored.entry = view.entry) :
    (∀ tx ∈ block.vtx, 0 ≤ tx.nVersion.toInt) ∧ view.UnspentVersionsNonneg := by
  obtain ⟨versions, txs⟩ := disconnectTransactions_versions run wellFormed.versionsNonneg_reload (by
    intro entry member txundo some undo inUndo
    obtain ⟨source, _, rfl⟩ := List.mem_map.mp member
    obtain ⟨written, _, rfl⟩ := Option.map_eq_some_iff.mp some
    obtain ⟨original, _, rfl⟩ := List.mem_map.mp inUndo
    exact diskVersion_nonneg original.nVersion)
  refine ⟨?_, versions.unspent same⟩
  intro tx member
  rw [recorded.vtx, ← List.map_cons (f := Prod.fst) (a := (coinbase, (none : Option CTxUndo)))] at member
  obtain ⟨entry, inEntries, rfl⟩ := List.mem_map.mp member
  exact txs (diskEntry entry) (List.mem_map_of_mem inEntries)

end

section

variable [Hashing] [ScriptMachine] [PubKeys] {settings : Settings} {mapBlockIndex : BlockMap}
  {pindex : CBlockIndex} {block : CBlock} {view connected : CoinsView}

/-- Disconnecting a block right after connecting it undoes it exactly when no
transaction of the block replaced an unspent output and no transaction version
that the undo data or the coins carry is negative. -/
theorem disconnectBlock_undoes_connectBlock_iff (wellFormed : view.WellFormed)
    (height : 0 < pindex.nHeight ∧ pindex.nHeight < 2 ^ 31) {prev : UInt256}
    (parent : pindex.pprev = some prev) {blockundo : CBlockUndo}
    (connect : block.connectBlock settings mapBlockIndex pindex view false = .ok (connected, some blockundo))
    {nPos : UInt32} {undoFiles : CDiskBlockPos → Bytes} {rest : Bytes}
    (written : undoFiles ⟨pindex.nFile, nPos⟩ = blockundo.writeToDisk prev ++ rest) :
    block.Undoes (pindex.recordUndo nPos) undoFiles view connected ↔
      block.OverwriteFree view ∧ (∀ tx ∈ block.vtx, 0 ≤ tx.nVersion.toInt) ∧
        view.UnspentVersionsNonneg := by
  rcases CBlock.connectBlock_cases connect with ⟨_, none, _⟩ | ⟨last, connects, undo, rfl⟩
  · contradiction
  cases undo
  obtain ⟨coinbase, entries, recorded⟩ := connects.recorded
  obtain ⟨kept, storable⟩ := connects.undo_storable recorded height wellFormed
  have keptBest : (last.view.setBestBlock pindex.phashBlock).WellFormed := kept.setBestBlock _
  have names : ((coinbase, none) :: entries).map Prod.fst = block.vtx := recorded.vtx.symm
  simp only [CBlock.Undoes, Bool.false_eq_true, if_false]
  rw [recorded.disconnectBlock_eq storable parent written rfl]
  have free : block.OverwriteFree view ↔ Fresh pindex.nHeight ((coinbase, none) :: entries) view := by
    rw [recorded.applied.fresh_iff (by rw [names]; exact connects.checked.hashes_nodup), names,
      CBlock.OverwriteFree, CBlock.connectedTxs, if_neg connects.notGenesis]
  -- with nonnegative versions the disk gives back what was written, and the two passes mirror each other
  have mirrored : (∀ tx ∈ block.vtx, 0 ≤ tx.nVersion.toInt) → view.UnspentVersionsNonneg →
      ∃ restored, (((coinbase, none) :: entries).map diskEntry).foldrM (disconnectTransaction pindex.nHeight)
        ((last.view.setBestBlock pindex.phashBlock).reload, true) = .ok restored ∧
        ((restored.2 = true ∧ restored.1.entry = view.entry) ↔ block.OverwriteFree view) := by
    intro txs versions
    obtain ⟨lastVersions, undos⟩ := recorded.applied.versions versions (by
      intro entry member
      apply txs
      rw [← names]
      exact List.mem_map_of_mem member)
    have disk : ((coinbase, none) :: entries).map diskEntry = ((coinbase, none) :: entries).map id :=
      List.map_congr_left fun entry member => diskEntry_eq_self (undos entry member)
    have coins : (last.view.setBestBlock pindex.phashBlock).reload.entry = last.view.entry :=
      keptBest.entry_reload_eq_self lastVersions
    obtain ⟨restored, run, _, undone⟩ := disconnectTransactions_iff recorded.applied height (by
      intro entry member
      apply connects.storable
      rw [← names]
      exact List.mem_map_of_mem member) wellFormed keptBest.clean_reload
    rw [disk, List.map_id]
    exact ⟨restored, run, undone.trans (by rw [coins, free]; simp)⟩
  constructor
  · rintro ⟨restored, run, same, _⟩
    obtain ⟨⟨reached, fClean⟩, fold, result⟩ := bind_eq_ok.mp run
    cases result
    obtain ⟨txs, versions⟩ := recorded.versions keptBest fold same
    obtain ⟨mirror, mirrorRun, undone⟩ := mirrored txs versions
    rw [mirrorRun] at fold
    cases fold
    exact ⟨undone.mp ⟨rfl, same⟩, txs, versions⟩
  · rintro ⟨fresh, txs, versions⟩
    obtain ⟨⟨restored, fClean⟩, run, undone⟩ := mirrored txs versions
    obtain ⟨clean, same⟩ := undone.mpr fresh
    refine ⟨restored.setBestBlock pindex.pprev, ?_, same, connects.parent⟩
    rw [run, ok_bind]
    simp only at clean
    rw [clean]

end

namespace Sample

scoped instance keys : PubKeys where
  uncompressed _ := none
  uncompressed_of_parity _ _ _ _ _ valid := by contradiction

def spend (prevout : COutPoint) (nValue : Int64) : CTransaction :=
  ⟨1, [⟨prevout, [], 0xffffffff⟩], [⟨nValue, [0x51]⟩], 0, []⟩

def fundedView : CoinsView :=
  ⟨fun txid => if txid = 0x77 then some ⟨false, [⟨900000, [0x51]⟩], 1, 1⟩ else none, some 5⟩

def payment : CTransaction := spend ⟨0x77, 0⟩ 800000

/-- A transaction that spends an output created in the same block. -/
def forward : CTransaction := spend ⟨payment.getHash, 0⟩ 700000

theorem fundedView_coins {txid : UInt256} {coins : CCoins} (found : fundedView.coins txid = some coins) :
    coins = ⟨false, [⟨900000, [0x51]⟩], 1, 1⟩ := by
  simp only [fundedView] at found
  split at found
  · exact (Option.some.inj found).symm
  · contradiction

theorem fundedView_wellFormed : fundedView.WellFormed := by
  intro txid coins found unspent
  cases fundedView_coins found
  · refine ⟨⟨?_, by decide, by decide⟩, by decide⟩
    intro nPos txout present
    obtain ⟨member, _⟩ := CCoins.output_eq_some.mp present
    rw [List.mem_singleton.mp (List.mem_of_getElem? member)]
    exact ⟨by decide, by decide⟩

end Sample

open Sample in
theorem disconnectBlock_undoes_connectBlock_sample : ∃ connected blockundo,
    connect 6 [coinbase, payment, forward] fundedView = .ok (connected, some blockundo) ∧
      (block 6 [coinbase, payment, forward]).Undoes ((index 6).recordUndo 8)
        (fun _ => blockundo.writeToDisk 5) fundedView connected := by
  obtain ⟨⟨connected, blockundo⟩, run⟩ := ok_of_isOk
    (show (connect 6 [coinbase, payment, forward] fundedView).isOk = true by decide +kernel)
  have undoes : (connect 6 [coinbase, payment, forward] fundedView).toOption.map
      (fun result => result.2.isSome) = some true := by decide +kernel
  rw [run] at undoes
  obtain ⟨undo, rfl⟩ : ∃ undo, blockundo = some undo :=
    Option.isSome_iff_exists.mp (by simpa [Except.toOption] using undoes)
  refine ⟨connected, undo, run, ?_⟩
  have txs : (block 6 [coinbase, payment, forward]).connectedTxs = [coinbase, payment, forward] := by
    decide +kernel
  have written : (fun _ => undo.writeToDisk 5 : CDiskBlockPos → Bytes) ⟨(index 6).nFile, 8⟩ =
      undo.writeToDisk 5 ++ [] := (List.append_nil _).symm
  apply (disconnectBlock_undoes_connectBlock_iff fundedView_wellFormed (by decide)
    (show (index 6).pprev = some 5 by decide) run written).mpr
  refine ⟨?_, by decide, ?_⟩
  · intro before tx after split nPos unspent
    have member : tx ∈ [coinbase, payment, forward] := by
      rw [← txs, split]
      simp
    have different : ∀ tx ∈ [coinbase, payment, forward], tx.getHash ≠ 0x77 := by decide +kernel
    have missing : fundedView.coins tx.getHash = none := if_neg (different tx member)
    simp [CoinsView.outputAt, missing] at unspent
  · intro txid coins found _
    rw [fundedView_coins found]
    decide

open Sample in
/-- Undoing the second of two known blocks with the same coinbase loses the
unspent output of the first. -/
theorem disconnectBlock_duplicate_coinbase : ∃ first second firstUndo secondUndo,
    connect 5 [coinbase] emptyView = .ok (first, firstUndo) ∧
      connect 6 [coinbase] first = .ok (second, some secondUndo) ∧
      ¬ (block 6 [coinbase]).Undoes ((index 6).recordUndo 8) (fun _ => secondUndo.writeToDisk 5)
        first second := by
  obtain ⟨first, second, firstUndo, secondUndo, firstRun, secondRun, unspent⟩ := connect_coinbase_twice
  have undone : ((connect 5 [coinbase] emptyView).bind fun first =>
      (connect 6 [coinbase] first.1).bind fun second =>
        ((block 6 [coinbase]).disconnectBlock ((index 6).recordUndo 8)
          (fun _ => (second.2.getD []).writeToDisk 5) second.1.reload).map fun restored =>
            (second.2.isSome, restored.1.hasUnspent coinbase.getHash)).toOption = some (true, false) := by
    decide +kernel
  rw [firstRun] at undone
  simp only [Except.bind] at undone
  rw [secondRun] at undone
  simp only at undone
  cases secondUndo with
  | none =>
      generalize CBlock.disconnectBlock _ _ _ _ = result at undone
      cases result <;> simp [Except.map, Except.toOption] at undone
  | some undo =>
      refine ⟨first, second, firstUndo, undo, firstRun, secondRun, ?_⟩
      rintro ⟨restored, run, same, _⟩
      simp only [Option.getD_some, run] at undone
      have lost : restored.hasUnspent coinbase.getHash = false :=
        congrArg Prod.snd (Option.some.inj undone)
      rw [CoinsView.hasUnspent_eq_false_iff, same, ← CoinsView.hasUnspent_eq_false_iff] at lost
      exact Bool.noConfusion (unspent.symm.trans lost)

end BitCrystal
