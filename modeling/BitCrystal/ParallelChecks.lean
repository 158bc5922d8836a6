import BitCrystal.Atomicity
import BitCrystal.CheckQueueControl

namespace BitCrystal

open Data

/-! # Script checks in the queue and inside CheckInputs -/

/-- The same node without script checking threads. -/
def Settings.inline (settings : Settings) : Settings := { settings with nScriptCheckThreads := 0 }

/-- The local variables of ConnectBlock where no checks are collected. -/
def ConnectState.inline (s : ConnectState) : ConnectState := { s with vChecks := [] }

section

variable [ScriptMachine]

theorem forM_runScriptCheck {checks : List CScriptCheck} :
    forM checks CTransaction.runScriptCheck = .ok () ↔ ∀ check ∈ checks, check.run = true := by
  induction checks with
  | nil => simp [pure, Except.pure]
  | cons check rest ih =>
      simp only [List.forM_cons, bind_eq_ok, ih, List.forall_mem_cons, CTransaction.runScriptCheck]
      cases passes : check.run with
      | true => simp
      | false =>
          simp only [Bool.false_eq_true, if_false, false_and, iff_false, not_exists, not_and]
          split <;> simp

theorem nothing_to_check :
    Matches (.ok [] : Except Failure (List CScriptCheck)) (.ok [])
      fun (checks : List CScriptCheck) done => (∀ check ∈ checks, check.run = true) ∧ done = [] := by
  intro done
  constructor
  · rintro ⟨⟩
    exact ⟨[], rfl, by simp, rfl⟩
  · rintro ⟨checks, -, -, rfl⟩
    rfl

theorem CTransaction.checkInputs_inline (tx : CTransaction) (map : BlockMap) (view : CoinsView)
    (fScriptChecks : Bool) (flags : UInt32) :
    Matches (tx.checkInputs map view fScriptChecks flags false)
      (tx.checkInputs map view fScriptChecks flags true)
      fun (checks : List CScriptCheck) done => (∀ check ∈ checks, check.run = true) ∧ done = [] := by
  unfold checkInputs
  cases tx.isCoinBase with
  | true => exact nothing_to_check
  | false =>
      simp only [Bool.false_eq_true, if_false]
      refine .after fun _ => .after fun _ => .after fun _ => .after fun _ => .after fun _ => .after fun _ =>
        .after fun _ => .after fun _ => ?_
      cases fScriptChecks with
      | false => exact nothing_to_check
      | true =>
          refine .after fun checks done => ?_
          simp only [if_true, bind_eq_ok, pure_eq_ok]
          constructor
          · rintro ⟨⟨⟩, passed, rfl⟩
            exact ⟨checks, rfl, forM_runScriptCheck.mp passed, rfl⟩
          · rintro ⟨_, rfl, passed, rfl⟩
            exact ⟨(), forM_runScriptCheck.mpr passed, rfl⟩

/-- The checks that were collected between two states pass; without collecting, ConnectBlock
has the second state's variables. -/
def ConnectState.Collected (s next t : ConnectState) : Prop :=
  ∃ checks, next.vChecks = s.vChecks ++ checks ∧ (∀ check ∈ checks, check.run = true) ∧ t = next.inline

variable {settings : Settings} {map : BlockMap} {pindex : CBlockIndex}

theorem connectInputs_inline (threads : settings.nScriptCheckThreads ≠ 0) (s : ConnectState)
    (tx : CTransaction) :
    Matches (connectInputs settings.inline map pindex s.inline tx) (connectInputs settings map pindex s tx)
      s.Collected := by
  unfold connectInputs
  refine .after fun _ => .after fun _ => .after fun _ => .after fun _ => .after fun _ => .after fun _ =>
    .after fun nFees t => ?_
  have collects : decide (settings.nScriptCheckThreads ≠ 0) = true := by simpa using threads
  have runs : decide (settings.inline.nScriptCheckThreads ≠ 0) = false := rfl
  simp only [collects, runs, bind_eq_ok, pure_eq_ok, CTransaction.checkInputs_inline _ _ _ _ _ _]
  constructor
  · rintro ⟨done, ⟨checks, found, passed, rfl⟩, rfl⟩
    exact ⟨_, ⟨checks, found, rfl⟩, checks, rfl, passed, rfl⟩
  · rintro ⟨next, ⟨checks, found, rfl⟩, collected, same, passed, rfl⟩
    obtain rfl := List.append_cancel_left same
    exact ⟨[], ⟨checks, found, passed, rfl⟩, rfl⟩

theorem checkInputs_length {tx : CTransaction} {view : CoinsView} {fScriptChecks pvChecks : Bool} {flags : UInt32}
    {checks : List CScriptCheck} (run : tx.checkInputs map view fScriptChecks flags pvChecks = .ok checks) :
    checks.length ≤ tx.vin.length := by
  have few : Sat (tx.checkInputs map view fScriptChecks flags pvChecks)
      (fun checks => checks.length ≤ tx.vin.length) fun _ => True := by
    unfold CTransaction.checkInputs
    refine .ite (fun _ => Nat.zero_le _) fun _ => ?_
    refine .after fun _ => .after fun _ => .after fun _ => .after fun _ => .after fun _ => .after fun _ =>
      .after fun _ => .after fun _ => .ite (fun _ => ?_) fun _ => Nat.zero_le _
    cases found : tx.vin.zipIdx.mapM (tx.scriptCheck view flags) with
    | error reason => trivial
    | ok collected =>
        rw [ok_bind]
        refine .ite (fun _ => ?_) fun _ => .after fun _ => Nat.zero_le _
        exact (mapM_length found).le.trans (by simp)
  exact few.of_ok run

theorem checkInputs_unchecked {tx : CTransaction} {view : CoinsView} {pvChecks : Bool} {flags : UInt32}
    {checks : List CScriptCheck} (run : tx.checkInputs map view false flags pvChecks = .ok checks) :
    checks = [] := by
  have none : Sat (tx.checkInputs map view false flags pvChecks) (fun checks => checks = []) fun _ => True := by
    unfold CTransaction.checkInputs
    refine .ite (fun _ => rfl) fun _ => ?_
    refine .after fun _ => .after fun _ => .after fun _ => .after fun _ => .after fun _ => .after fun _ =>
      .after fun _ => .after fun _ => .ite (fun on => absurd on (by simp)) fun _ => rfl
  exact none.of_ok run

theorem collected_bind {s : ConnectState} {first second : Except Failure ConnectState}
    {next : ConnectState → Except Failure ConnectState} (same : Matches first second s.Collected)
    (blind : ∀ t, next t.inline = (next t).map ConnectState.inline)
    (keeps : ∀ t last, next t = .ok last → last.vChecks = t.vChecks) :
    Matches (first >>= next) (second >>= next) s.Collected := by
  intro last
  simp only [bind_eq_ok]
  constructor
  · rintro ⟨between, found, ended⟩
    obtain ⟨t, collecting, checks, appended, passed, rfl⟩ := (same between).mp found
    rw [blind] at ended
    cases after : next t with
    | error reason => simp [after, Except.map] at ended
    | ok other =>
        simp only [after, Except.map, Except.ok.injEq] at ended
        exact ⟨other, ⟨t, collecting, after⟩, checks, (keeps t other after).trans appended, passed, ended.symm⟩
  · rintro ⟨other, ⟨t, collecting, after⟩, checks, appended, passed, rfl⟩
    have collected : s.Collected t t.inline := ⟨checks, (keeps t other after).symm.trans appended, passed, rfl⟩
    refine ⟨t.inline, (same _).mpr ⟨t, collecting, collected⟩, ?_⟩
    rw [blind, after]
    rfl

variable [Hashing]

theorem connectTransaction_inline (threads : settings.nScriptCheckThreads ≠ 0) (s : ConnectState)
    (tx : CTransaction) :
    Matches (connectTransaction settings.inline map pindex s.inline tx)
      (connectTransaction settings map pindex s tx) s.Collected := by
  unfold connectTransaction
  refine .after fun _ => collected_bind ?_ ?_ ?_
  · cases tx.isCoinBase with
    | true =>
        intro t
        constructor
        · rintro ⟨⟩
          exact ⟨_, rfl, [], by simp, by simp, rfl⟩
        · rintro ⟨next, ⟨⟩, checks, -, -, rfl⟩
          rfl
    | false =>
        exact connectInputs_inline threads { s with nSigOps := s.nSigOps + tx.getLegacySigOpCount } tx
  · intro t
    simp only [ConnectState.inline]
    cases tx.updateCoins t.view pindex.nHeight tx.getHash with
    | error reason => rfl
    | ok updated => rfl
  · intro t last
    simp only [bind_eq_ok, pure_eq_ok]
    rintro ⟨updated, -, rfl⟩
    rfl

theorem connectTransaction_collects {s next : ConnectState} {tx : CTransaction}
    (run : connectTransaction settings map pindex s tx = .ok next) :
    ∃ checks, next.vChecks = s.vChecks ++ checks ∧ checks.length ≤ tx.vin.length ∧
      (tx.isCoinBase ∨ pindex.fScriptChecks = false → checks = []) := by
  simp only [connectTransaction, bind_eq_ok, pure_eq_ok] at run
  obtain ⟨-, -, t, inputs, updated, -, rfl⟩ := run
  split at inputs
  · cases inputs
    exact ⟨[], by simp, Nat.zero_le _, fun _ => rfl⟩
  · simp only [connectInputs, bind_eq_ok, pure_eq_ok] at inputs
    obtain ⟨-, -, -, -, -, -, -, -, -, -, -, -, -, -, checks, found, rfl⟩ := inputs
    refine ⟨checks, rfl, checkInputs_length found, ?_⟩
    rintro (coinBase | unchecked)
    · contradiction
    · exact checkInputs_unchecked (unchecked ▸ found)

theorem connectLoop_collects {txs : List CTransaction} {s last : ConnectState}
    (run : txs.foldlM (connectTransaction settings map pindex) s = .ok last) :
    ∃ checks, last.vChecks = s.vChecks ++ checks := by
  refine foldlM_relation (fun _ s last => ∃ checks, last.vChecks = s.vChecks ++ checks) ?_ ?_ run
  · exact fun s => ⟨[], by simp⟩
  · rintro tx rest s next last step ⟨checks', later⟩
    obtain ⟨checks, appended, -, -⟩ := connectTransaction_collects step
    exact ⟨checks ++ checks', by rw [later, appended, List.append_assoc]⟩

theorem connectLoop_inline (threads : settings.nScriptCheckThreads ≠ 0) (txs : List CTransaction)
    (s : ConnectState) :
    Matches (txs.foldlM (connectTransaction settings.inline map pindex) s.inline)
      (txs.foldlM (connectTransaction settings map pindex) s) s.Collected := by
  induction txs generalizing s with
  | nil =>
      intro t
      simp only [List.foldlM_nil, pure_eq_ok]
      constructor
      · rintro rfl
        exact ⟨s, rfl, [], by simp, by simp, rfl⟩
      · rintro ⟨next, rfl, checks, -, -, rfl⟩
        rfl
  | cons tx rest ih =>
      intro last
      simp only [foldlM_cons_eq_ok]
      constructor
      · rintro ⟨between, step, run⟩
        obtain ⟨t, collecting, checks, appended, passed, rfl⟩ :=
          (connectTransaction_inline threads s tx between).mp step
        obtain ⟨other, remaining, checks', appended', passed', rfl⟩ := (ih t last).mp run
        refine ⟨other, ⟨t, collecting, remaining⟩, checks ++ checks', ?_, ?_, rfl⟩
        · rw [appended', appended, List.append_assoc]
        · exact List.forall_mem_append.mpr ⟨passed, passed'⟩
      · rintro ⟨other, ⟨t, collecting, remaining⟩, checks, appended, passed, rfl⟩
        obtain ⟨first, added, -, -⟩ := connectTransaction_collects collecting
        obtain ⟨later, added'⟩ := connectLoop_collects remaining
        obtain rfl : checks = first ++ later := by
          rw [added', added, List.append_assoc] at appended
          exact (List.append_cancel_left appended).symm
        obtain ⟨passed, passed'⟩ := List.forall_mem_append.mp passed
        exact ⟨t.inline, (connectTransaction_inline threads s tx _).mpr ⟨t, collecting, first, added, passed, rfl⟩,
          (ih t _).mpr ⟨other, remaining, later, added', passed', rfl⟩⟩

/-! ## ConnectBlock with script checking threads -/

/-- The batches that the loop of ConnectBlock adds to the queue until it stops. -/
def addedChecks (settings : Settings) (map : BlockMap) (pindex : CBlockIndex) :
    ConnectState → List CTransaction → List (List CScriptCheck)
  | _, [] => []
  | s, tx :: rest =>
      match connectTransaction settings map pindex s tx with
      | .error _ => []
      | .ok next =>
          if tx.isCoinBase then addedChecks settings map pindex next rest
          else next.vChecks.drop s.vChecks.length :: addedChecks settings map pindex next rest

theorem addedChecks_flatten {txs : List CTransaction} {s last : ConnectState}
    (run : txs.foldlM (connectTransaction settings map pindex) s = .ok last) :
    last.vChecks = s.vChecks ++ (addedChecks settings map pindex s txs).flatten := by
  induction txs generalizing s with
  | nil =>
      cases run
      simp [addedChecks]
  | cons tx rest ih =>
      obtain ⟨next, step, remaining⟩ := foldlM_cons_eq_ok.mp run
      obtain ⟨checks, appended, -, none⟩ := connectTransaction_collects step
      rw [ih remaining, appended, addedChecks, step]
      dsimp only
      split
      · rw [none (.inl ‹_›), List.append_nil]
      · rw [appended, List.drop_left, List.flatten_cons, List.append_assoc]

theorem addedChecks_length (txs : List CTransaction) (s : ConnectState) :
    (addedChecks settings map pindex s txs).flatten.length ≤ (txs.map fun tx => tx.vin.length).sum := by
  induction txs generalizing s with
  | nil => simp [addedChecks]
  | cons tx rest ih =>
      rw [addedChecks, List.map_cons, List.sum_cons]
      cases step : connectTransaction settings map pindex s tx with
      | error reason => simp
      | ok next =>
          obtain ⟨checks, appended, few, -⟩ := connectTransaction_collects step
          have others := ih next
          dsimp only
          split
          · omega
          · rw [appended, List.drop_left, List.flatten_cons, List.length_append]
            omega

theorem addedChecks_unchecked (unchecked : pindex.fScriptChecks = false) (txs : List CTransaction)
    (s : ConnectState) : (addedChecks settings map pindex s txs).flatten = [] := by
  induction txs generalizing s with
  | nil => simp [addedChecks]
  | cons tx rest ih =>
      rw [addedChecks]
      cases step : connectTransaction settings map pindex s tx with
      | error reason => rfl
      | ok next =>
          obtain ⟨checks, appended, -, none⟩ := connectTransaction_collects step
          dsimp only
          split
          · exact ih next
          · rw [appended, List.drop_left, none (.inr unchecked), List.flatten_cons, List.nil_append]
            exact ih next

namespace CBlock

/-- ConnectBlock before it makes its CCheckQueueControl, and whether it is done by then. -/
def beforeChecks (settings : Settings) (block : CBlock) (pindex : CBlockIndex) (view : CoinsView)
    (fJustCheck : Bool) : Except Failure Bool := do
  block.checkBlock settings (!fJustCheck) (!fJustCheck)
  require (pindex.pprev = view.best) (.undefined "ConnectBlock")
  if block.getHash = hashGenesisBlock then
    return true
  else
    require (pindex.phashBlock = none → block.vtx.all fun tx => !view.hasUnspent tx.getHash)
      (.dos 100 "ConnectBlock() : tried to overwrite transaction")
    return false

/-- The loop of ConnectBlock and the check of the coinbase, with the verdict of
`control.Wait()`. -/
def afterChecks (settings : Settings) (map : BlockMap) (block : CBlock) (pindex : CBlockIndex) (view : CoinsView)
    (verdict : ConnectState → Bool) : Except Failure ConnectState := do
  let s ← block.vtx.foldlM (connectTransaction settings map pindex) ⟨view, 0, 0, [], []⟩
  let coinbase ← expect block.vtx.head? (.undefined "ConnectBlock")
  let nValueOut ← coinbase.getValueOut
  let nBlockValue ← getBlockValue pindex.nHeight s.nFees
  require (nValueOut ≤ nBlockValue) (.dos 100 "ConnectBlock() : coinbase pays too much")
  require (verdict s) (.dos 100 "")
  return s

/-- The view and the undo data that ConnectBlock leaves to its last part. -/
def connected (pindex : CBlockIndex) (fJustCheck : Bool) (s : ConnectState) : CoinsView × Option CBlockUndo :=
  (if fJustCheck then s.view else s.view.setBestBlock pindex.phashBlock, some s.vtxundo)

theorem connectBlock_eq (block : CBlock) (view : CoinsView) (fJustCheck : Bool) :
    block.connectBlock settings map pindex view fJustCheck = do
      let done ← block.beforeChecks settings pindex view fJustCheck
      if done then
        return (view.setBestBlock pindex.phashBlock, none)
      else
        let s ← block.afterChecks settings map pindex view fun s => s.vChecks.all CScriptCheck.run
        return connected pindex fJustCheck s := by
  unfold connectBlock beforeChecks connectTransactions afterChecks connected
  simp only [bind_assoc, pure_bind]
  congr 1
  funext _
  congr 1
  funext _
  split
  · rfl
  · simp only [bind_assoc, pure_bind, Bool.false_eq_true, if_false]

theorem afterChecks_inline (threads : settings.nScriptCheckThreads ≠ 0) (block : CBlock) (view : CoinsView)
    {fRet : Bool} (verdict : fRet = true ↔
      ∀ check ∈ (addedChecks settings map pindex ⟨view, 0, 0, [], []⟩ block.vtx).flatten, check.run = true) :
    Matches (block.afterChecks settings.inline map pindex view fun s => s.vChecks.all CScriptCheck.run)
      (block.afterChecks settings map pindex view fun _ => fRet) fun next t => t = next.inline := by
  intro t
  simp only [afterChecks, bind_eq_ok, require_eq_ok, expect_eq_ok, pure_eq_ok]
  constructor
  · rintro ⟨last, run, coinbase, first, nValueOut, out, nBlockValue, value, done, within, -, -, rfl⟩
    obtain ⟨next, collecting, checks, appended, passed, rfl⟩ :=
      (connectLoop_inline threads block.vtx ⟨view, 0, 0, [], []⟩ last).mp run
    refine ⟨next, ⟨next, collecting, coinbase, first, nValueOut, out, nBlockValue, value, done, within, (), ?_, rfl⟩,
      rfl⟩
    refine verdict.mpr fun check member => passed check ?_
    rw [addedChecks_flatten collecting] at appended
    exact List.append_cancel_left appended ▸ member
  · rintro ⟨_, ⟨next, collecting, coinbase, first, nValueOut, out, nBlockValue, value, done, within, -, returns,
      rfl⟩, rfl⟩
    have collected : ConnectState.Collected ⟨view, 0, 0, [], []⟩ next next.inline :=
      ⟨_, addedChecks_flatten collecting, verdict.mp returns, rfl⟩
    have run := (connectLoop_inline threads block.vtx ⟨view, 0, 0, [], []⟩ next.inline).mpr
      ⟨next, collecting, collected⟩
    exact ⟨next.inline, run, coinbase, first, nValueOut, out, nBlockValue, value, done, within, (), rfl, rfl⟩

variable {nWorkers : Nat}

/-- ConnectBlock with script checking threads, up to its writes to the disk: where it goes on
after its first checks, its CCheckQueueControl adds the batches of the loop, and the destructor
waits where the loop stops early. The control has no queue where scripts are not checked. -/
inductive ConnectsThrough (settings : Settings) (map : BlockMap) (block : CBlock) (pindex : CBlockIndex)
    (view : CoinsView) (fJustCheck : Bool) (system : CheckSystem nWorkers CScriptCheck) :
    Except Failure (CoinsView × Option CBlockUndo) → CheckSystem nWorkers CScriptCheck → Prop
  | refused {reason : Failure}
      (before : block.beforeChecks settings pindex view fJustCheck = .error reason) :
      ConnectsThrough settings map block pindex view fJustCheck system (.error reason) system
  | genesis (before : block.beforeChecks settings pindex view fJustCheck = .ok true) :
      ConnectsThrough settings map block pindex view fJustCheck system
        (.ok (view.setBestBlock pindex.phashBlock, none)) system
  | unchecked (before : block.beforeChecks settings pindex view fJustCheck = .ok false)
      (off : pindex.fScriptChecks = false) :
      ConnectsThrough settings map block pindex view fJustCheck system
        (block.afterChecks settings map pindex view (fun _ => true) >>= fun s =>
          return connected pindex fJustCheck s) system
  | checked {fRet : Bool} {last : CheckSystem nWorkers CScriptCheck}
      (before : block.beforeChecks settings pindex view fJustCheck = .ok false)
      (on : pindex.fScriptChecks = true)
      (controls : system.Controls CScriptCheck.run
        (addedChecks settings map pindex ⟨view, 0, 0, [], []⟩ block.vtx) fRet last) :
      ConnectsThrough settings map block pindex view fJustCheck system
        (block.afterChecks settings map pindex view (fun _ => fRet) >>= fun s =>
          return connected pindex fJustCheck s) last

theorem few_checks {block : CBlock} {view : CoinsView} {fJustCheck done : Bool}
    (run : block.beforeChecks settings pindex view fJustCheck = .ok done) :
    (addedChecks settings map pindex ⟨view, 0, 0, [], []⟩ block.vtx).flatten.length < 2 ^ 32 := by
  refine (addedChecks_length block.vtx _).trans_lt ?_
  unfold beforeChecks at run
  obtain ⟨checked, passed, -⟩ := bind_eq_ok.mp run
  have size := (Checked.of_checkBlock passed).size_le
  have inputs : (block.vtx.map fun tx => tx.vin.length).sum ≤ (block.vtx.map CTransaction.getSerializeSize).sum := by
    refine List.sum_le_sum fun tx _ => ?_
    have each := List.length_le_sum_of_one_le (tx.vin.map CTxIn.getSerializeSize) (by
      intro size member
      obtain ⟨txin, -, rfl⟩ := List.mem_map.mp member
      unfold CTxIn.getSerializeSize
      omega)
    rw [List.length_map] at each
    unfold CTransaction.getSerializeSize
    omega
  unfold getSerializeSize at size
  have limit : MAX_BLOCK_SIZE < 2 ^ 32 := by decide
  omega

theorem connectBlock_verdict (threads : settings.nScriptCheckThreads ≠ 0) {block : CBlock} {view : CoinsView}
    {fJustCheck fRet : Bool} (before : block.beforeChecks settings pindex view fJustCheck = .ok false)
    (verdict : fRet = true ↔
      ∀ check ∈ (addedChecks settings map pindex ⟨view, 0, 0, [], []⟩ block.vtx).flatten, check.run = true) :
    Matches (block.connectBlock settings.inline map pindex view fJustCheck)
      (block.afterChecks settings map pindex view (fun _ => fRet) >>= fun s =>
        return connected pindex fJustCheck s) fun other value => value = other := by
  have same : block.beforeChecks settings.inline pindex view fJustCheck = .ok false := before
  intro value
  rw [connectBlock_eq, same]
  simp only [ok_bind, Bool.false_eq_true, if_false, bind_eq_ok, pure_eq_ok]
  constructor
  · rintro ⟨t, run, rfl⟩
    obtain ⟨next, collecting, rfl⟩ := (afterChecks_inline threads block view verdict t).mp run
    exact ⟨connected pindex fJustCheck next, ⟨next, collecting, rfl⟩, rfl⟩
  · rintro ⟨_, ⟨next, collecting, rfl⟩, rfl⟩
    exact ⟨next.inline, (afterChecks_inline threads block view verdict _).mpr ⟨next, collecting, rfl⟩, rfl⟩

/-- Whatever the threads do, ConnectBlock accepts the block and leaves the same view and undo
data as without them. -/
theorem ConnectsThrough.inline {block : CBlock} {view : CoinsView} {fJustCheck : Bool}
    {system last : CheckSystem nWorkers CScriptCheck} {result : Except Failure (CoinsView × Option CBlockUndo)}
    (run : block.ConnectsThrough settings map pindex view fJustCheck system result last)
    (threads : settings.nScriptCheckThreads ≠ 0) (unused : system.Unused CScriptCheck.run) :
    last.Unused CScriptCheck.run ∧
      Matches (block.connectBlock settings.inline map pindex view fJustCheck) result fun other value =>
        value = other := by
  cases run with
  | refused before =>
      have same : block.beforeChecks settings.inline pindex view fJustCheck = _ := before
      refine ⟨unused, fun value => ?_⟩
      rw [connectBlock_eq, same]
      simp
  | genesis before =>
      have same : block.beforeChecks settings.inline pindex view fJustCheck = _ := before
      refine ⟨unused, fun value => ?_⟩
      rw [connectBlock_eq, same]
      constructor
      · exact fun done => ⟨_, rfl, (pure_eq_ok.mp done).symm⟩
      · rintro ⟨_, ⟨⟩, rfl⟩
        rfl
  | unchecked before off =>
      refine ⟨unused, connectBlock_verdict threads before ?_⟩
      simp [addedChecks_unchecked off]
  | checked before on controls =>
      obtain ⟨verdict, reusable⟩ := controls.verdict unused (few_checks before)
      exact ⟨reusable, connectBlock_verdict threads before verdict⟩

theorem connectsThrough (settings : Settings) (map : BlockMap) (block : CBlock) (pindex : CBlockIndex)
    (view : CoinsView) (fJustCheck : Bool) {system : CheckSystem nWorkers CScriptCheck}
    (unused : system.Unused CScriptCheck.run) :
    ∃ result last, block.ConnectsThrough settings map pindex view fJustCheck system result last := by
  cases before : block.beforeChecks settings pindex view fJustCheck with
  | error reason => exact ⟨_, _, .refused before⟩
  | ok done =>
      cases done with
      | true => exact ⟨_, _, .genesis before⟩
      | false =>
          cases scripts : pindex.fScriptChecks with
          | false => exact ⟨_, _, .unchecked before scripts⟩
          | true =>
              obtain ⟨fRet, last, controls⟩ := unused.controls (few_checks before)
              exact ⟨_, last, .checked before scripts controls⟩

end CBlock

/-! ## What ConnectBlock writes -/

structure CDiskTxPos where
  /-- GetBlockPos of the block -/
  pos : Option CDiskBlockPos
  nTxOffset : UInt32

/-- `vPos` of ConnectBlock, from `nTxOffset` on. -/
def vPosFrom (pos : Option CDiskBlockPos) : UInt32 → List CTransaction → List (UInt256 × CDiskTxPos)
  | _, [] => []
  | nTxOffset, tx :: rest =>
      (tx.getHash, ⟨pos, nTxOffset⟩) :: vPosFrom pos (nTxOffset + UInt32.ofNat tx.getSerializeSize) rest

def CBlock.vPos (block : CBlock) (pindex : CBlockIndex) : List (UInt256 × CDiskTxPos) :=
  vPosFrom pindex.getBlockPos (UInt32.ofNat (getSizeOfCompactSize block.vtx.length)) block.vtx

/-- What ConnectBlock changes: the view, the block index with the undo files, and the
transaction index. -/
structure ConnectStore where
  winding : Winding
  txIndex : UInt256 → Option CDiskTxPos

def ConnectStore.setView (store : ConnectStore) (view : CoinsView) : ConnectStore :=
  { store with winding := { store.winding with view } }

def writeTxIndex (vPos : List (UInt256 × CDiskTxPos)) (txIndex : UInt256 → Option CDiskTxPos) :
    UInt256 → Option CDiskTxPos :=
  vPos.foldl (fun index entry => Function.update index entry.1 (some entry.2)) txIndex

/-- ConnectBlock after its checks. -/
def CBlock.finishConnect [PubKeys] (env : Surroundings) (hash : UInt256) (block : CBlock) (pindex : CBlockIndex)
    (fJustCheck : Bool) (store : ConnectStore) (result : Except Failure (CoinsView × Option CBlockUndo)) :
    Step ConnectStore :=
  match result with
  | .error reason => ⟨store, some reason⟩
  | .ok (view, none) => ⟨store.setView view, none⟩
  | .ok (view, some blockundo) =>
      if fJustCheck then ⟨store.setView view, none⟩
      else
        let written := writeConnected env hash pindex blockundo store.winding
        match written.failure with
        | some reason => ⟨{ store with winding := written.state }, some reason⟩
        | none =>
            let txIndex := if env.settings.fTxIndex then writeTxIndex (block.vPos pindex) store.txIndex
              else store.txIndex
            ⟨ConnectStore.setView ⟨written.state, txIndex⟩ view, none⟩

/-- With script checking threads ConnectBlock ends, and however the threads are scheduled it accepts
the block and leaves the same view, undo data and index entries exactly where it does so without them. -/
theorem CBlock.connectBlock_parallel [PubKeys] {nWorkers : Nat} (env : Surroundings) (map : BlockMap)
    (hash : UInt256) (block : CBlock) (pindex : CBlockIndex) (view : CoinsView) (fJustCheck : Bool)
    (store : ConnectStore) {system : CheckSystem nWorkers CScriptCheck}
    (threads : env.settings.nScriptCheckThreads ≠ 0) (unused : system.Unused CScriptCheck.run) :
    (∃ result last, block.ConnectsThrough env.settings map pindex view fJustCheck system result last) ∧
      ∀ result last, block.ConnectsThrough env.settings map pindex view fJustCheck system result last →
        last.Unused CScriptCheck.run ∧
          ∀ after, block.finishConnect env hash pindex fJustCheck store result = ⟨after, none⟩ ↔
            block.finishConnect env hash pindex fJustCheck store
              (block.connectBlock env.settings.inline map pindex view fJustCheck) = ⟨after, none⟩ := by
  refine ⟨connectsThrough env.settings map block pindex view fJustCheck unused, fun result last run => ?_⟩
  obtain ⟨reusable, same⟩ := run.inline threads unused
  refine ⟨reusable, fun after => ?_⟩
  cases accepted : block.connectBlock env.settings.inline map pindex view fJustCheck with
  | ok value =>
      obtain ⟨other, rfl, rfl⟩ := (same value).mp accepted
      rfl
  | error reason =>
      cases result with
      | ok value =>
          have := (same value).mpr ⟨value, rfl, rfl⟩
          simp [accepted] at this
      | error other => simp [finishConnect]

end

namespace Sample

/-- A node with three script checking threads. -/
def threaded : Surroundings := { sound with settings := { settings with nScriptCheckThreads := 3 } }

def chained : CBlock := block 6 [coinbase, payment, forward]

def fundedStore : ConnectStore := ⟨⟨fundedView, [], blocks, fun _ => []⟩, fun _ => none⟩

end Sample

open Sample in
/-- The last transaction spends an output of the one before. -/
theorem CBlock.connectBlock_parallel_sample :
    ∃ result last, chained.ConnectsThrough threaded.settings blocks (index 6) fundedView false
        (CheckSystem.initial 2 CScriptCheck 128) result last ∧
      (chained.finishConnect threaded 6 (index 6) false fundedStore result).failure = none := by
  have accepted : (chained.finishConnect threaded 6 (index 6) false fundedStore
      (chained.connectBlock threaded.settings.inline blocks (index 6) fundedView false)).failure = none := by
    decide +kernel
  have parallel := connectBlock_parallel threaded blocks 6 chained (index 6) fundedView false fundedStore
    (Nat.succ_ne_zero 2)
    (⟨.initial 128, .inl rfl, rfl⟩ : (CheckSystem.initial 2 CScriptCheck 128).Unused CScriptCheck.run)
  refine parallel.1.imp fun result ends => ends.imp fun last run => ⟨run, ?_⟩
  have same := (parallel.2 result last run).2
  generalize chained.finishConnect threaded 6 (index 6) false fundedStore
    (chained.connectBlock threaded.settings.inline blocks (index 6) fundedView false) = without at accepted same
  obtain ⟨after, failure⟩ := without
  obtain rfl : failure = none := accepted
  rw [(same after).mpr rfl]

end BitCrystal
