import BitCrystal.InterpreterLimits
import BitCrystal.WalletTx

namespace BitCrystal

open Data

/-! # The cached amounts of a wallet transaction -/

namespace CWalletTx

/-! ## The spent flags -/

variable {wtx : CWalletTx} {w next : TxWallet}

theorem mergeSpent_unchanged {vfNewSpent vfSpent : List Bool} (none : (mergeSpent vfNewSpent vfSpent).2 = false) :
    (mergeSpent vfNewSpent vfSpent).1 = vfSpent := by
  induction vfNewSpent generalizing vfSpent with
  | nil => rfl
  | cons fNew rest ih =>
      cases vfSpent with
      | nil => rfl
      | cons fSpent others =>
          simp only [mergeSpent, Bool.or_eq_false_iff] at none ⊢
          rw [ih none.2]
          cases fNew <;> cases fSpent <;> simp_all

theorem resizedSpent_getD {nOut : Nat} (within : nOut < wtx.vout.length) :
    wtx.resizedSpent[nOut]?.getD false = wtx.isSpent nOut := by
  unfold resizedSpent isSpent
  rw [List.getElem?_append, List.length_take]
  split
  · rw [List.getElem?_take_of_lt within]
  · rename_i beyond
    rw [List.getElem?_replicate, List.getElem?_eq_none (by omega)]
    split <;> rfl

variable [ScriptDigests]

theorem sumAvailable_congr {other : CWalletTx} (same : other.vout = wtx.vout)
    (flags : ∀ nOut, nOut < wtx.vout.length → other.isSpent nOut = wtx.isSpent nOut) :
    other.sumAvailable w = wtx.sumAvailable w := by
  unfold sumAvailable
  rw [same]
  apply foldlM_congr
  intro entry member nCredit
  obtain ⟨_, within, _⟩ := List.mem_zipIdx member
  rw [flags entry.2 (by omega)]

/-! ## What the caches hold -/

/-- The four amounts that MarkDirty clears are those that the wallet would compute. -/
structure Current (wtx : CWalletTx) (w : TxWallet) : Prop where
  debit : wtx.debit.Current (w.getDebit wtx.toCTransaction)
  credit : wtx.credit.Current (w.getCredit wtx.toCTransaction)
  available : wtx.availableCredit.Current (wtx.sumAvailable w)
  change : wtx.change.Current (w.getChange wtx.toCTransaction)

def ImmatureCurrent (wtx : CWalletTx) (w : TxWallet) : Prop :=
  wtx.immatureCredit.Current (w.getCredit wtx.toCTransaction)

/-- All five cached-flags are false. -/
def cleared (wtx : CWalletTx) : CWalletTx :=
  { wtx with
    debit := wtx.debit.clear
    credit := wtx.credit.clear
    immatureCredit := wtx.immatureCredit.clear
    availableCredit := wtx.availableCredit.clear
    change := wtx.change.clear }

theorem current_cleared : wtx.cleared.Current w :=
  ⟨Memo.current_clear, Memo.current_clear, Memo.current_clear, Memo.current_clear⟩

theorem markDirty_current : wtx.markDirty.Current w :=
  ⟨Memo.current_clear, Memo.current_clear, Memo.current_clear, Memo.current_clear⟩

theorem Current.updateSpent (current : wtx.Current w) (vfNewSpent : List Bool) :
    (wtx.updateSpent vfNewSpent).1.Current w := by
  unfold CWalletTx.updateSpent
  dsimp only
  split
  · exact ⟨current.debit, current.credit, Memo.current_clear, current.change⟩
  · exact current

theorem Current.markSpent (current : wtx.Current w) (nOut : Nat) : (wtx.markSpent nOut).1.Current w := by
  unfold CWalletTx.markSpent
  split
  · exact current
  · split
    · refine ⟨current.debit, current.credit, ?_, current.change⟩
      have sum : { wtx with vfSpent := wtx.resizedSpent }.sumAvailable w = wtx.sumAvailable w :=
        sumAvailable_congr rfl fun nOut within => resizedSpent_getD within
      rw [sum]
      exact current.available
    · exact ⟨current.debit, current.credit, Memo.current_clear, current.change⟩

theorem Current.getDebit (current : wtx.Current w) : (wtx.getDebit w).1.Current w := by
  unfold CWalletTx.getDebit
  split
  · exact current
  · exact ⟨current.debit.read, current.credit, current.available, current.change⟩

theorem Current.getChange (current : wtx.Current w) : (wtx.getChange w).1.Current w :=
  ⟨current.debit, current.credit, current.available, current.change.read⟩

section

variable [Hashing] {chain : MainChain} {fUseCache : Bool}

omit [ScriptDigests] in
theorem tested_eq (chain : MainChain) :
    wtx.tested chain = { wtx with fMerkleVerified := (wtx.tested chain).fMerkleVerified } := by
  unfold tested
  split <;> rfl

theorem Current.tested (current : wtx.Current w) (chain : MainChain) : (wtx.tested chain).Current w := by
  rw [tested_eq]
  exact ⟨current.debit, current.credit, current.available, current.change⟩

theorem Current.getCredit (current : wtx.Current w) : (wtx.getCredit chain w fUseCache).1.Current w := by
  have tested := current.tested chain
  unfold CWalletTx.getCredit
  dsimp only
  split
  · exact tested
  · exact ⟨tested.debit, tested.credit.read, tested.available, tested.change⟩

theorem Current.getImmatureCredit (current : wtx.Current w) :
    (wtx.getImmatureCredit chain w fUseCache).1.Current w := by
  have tested := current.tested chain
  unfold CWalletTx.getImmatureCredit
  dsimp only
  split
  · exact ⟨tested.debit, tested.credit, tested.available, tested.change⟩
  · exact tested

theorem Current.getAvailableCredit (current : wtx.Current w) :
    (wtx.getAvailableCredit chain w fUseCache).1.Current w := by
  have tested := current.tested chain
  unfold CWalletTx.getAvailableCredit
  dsimp only
  split
  · exact tested
  · exact ⟨tested.debit, tested.credit, tested.available.read, tested.change⟩

/-! ## What the getters answer -/

omit [Hashing] in
theorem Current.debit_answer (current : wtx.Current w) : (wtx.getDebit w).2 = (wtx.cleared.getDebit w).2 := by
  unfold CWalletTx.getDebit
  by_cases empty : wtx.vin = []
  · rw [if_pos empty, if_pos (show wtx.cleared.vin = [] from empty)]
  · rw [if_neg empty, if_neg (show wtx.cleared.vin ≠ [] from empty)]
    exact current.debit.read_answer.trans Memo.current_clear.read_answer.symm

omit [Hashing] in
theorem Current.change_answer (current : wtx.Current w) :
    (wtx.getChange w).2 = (wtx.cleared.getChange w).2 := by
  unfold CWalletTx.getChange
  exact current.change.read_answer.trans Memo.current_clear.read_answer.symm

omit [ScriptDigests] in
theorem tested_cleared (chain : MainChain) : wtx.cleared.tested chain = (wtx.tested chain).cleared := by
  have coinbase : wtx.cleared.isCoinBase = wtx.isCoinBase := rfl
  unfold tested
  rw [coinbase]
  split <;> rfl

theorem Current.credit_answer (current : wtx.Current w) (chain : MainChain) (fUseCache : Bool) :
    (wtx.getCredit chain w fUseCache).2 = (wtx.cleared.getCredit chain w fUseCache).2 := by
  have tested := current.tested chain
  unfold CWalletTx.getCredit
  rw [tested_cleared]
  have same : (wtx.tested chain).cleared.immature chain = (wtx.tested chain).immature chain := rfl
  dsimp only
  rw [same]
  split
  · rfl
  · exact tested.credit.read_answer.trans Memo.current_clear.read_answer.symm

theorem Current.available_answer (current : wtx.Current w) (chain : MainChain) (fUseCache : Bool) :
    (wtx.getAvailableCredit chain w fUseCache).2 = (wtx.cleared.getAvailableCredit chain w fUseCache).2 := by
  have tested := current.tested chain
  unfold CWalletTx.getAvailableCredit
  rw [tested_cleared]
  have same : (wtx.tested chain).cleared.immature chain = (wtx.tested chain).immature chain := rfl
  dsimp only
  rw [same]
  split
  · rfl
  · exact tested.available.read_answer.trans Memo.current_clear.read_answer.symm

/-- GetImmatureCredit answers as without a cache exactly where it reads none or reads a value that
the wallet still computes. -/
theorem immature_answer_iff (chain : MainChain) (fUseCache : Bool) :
    (wtx.getImmatureCredit chain w fUseCache).2 = (wtx.cleared.getImmatureCredit chain w fUseCache).2 ↔
      ((wtx.tested chain).immature chain = true → 0 < (wtx.tested chain).getDepthInMainChain chain →
        fUseCache = true → wtx.ImmatureCurrent w) := by
  have kept : (wtx.tested chain).immatureCredit = wtx.immatureCredit := by rw [tested_eq]
  have transaction : (wtx.tested chain).toCTransaction = wtx.toCTransaction := by rw [tested_eq]
  have same : (wtx.tested chain).cleared.immature chain = (wtx.tested chain).immature chain := rfl
  have depth : (wtx.tested chain).cleared.getDepthInMainChain chain =
      (wtx.tested chain).getDepthInMainChain chain := rfl
  unfold CWalletTx.getImmatureCredit
  rw [tested_cleared]
  dsimp only
  rw [same, depth]
  cases immature : (wtx.tested chain).immature chain with
  | false => simp
  | true =>
      by_cases deep : 0 < (wtx.tested chain).getDepthInMainChain chain
      · simp only [deep, decide_true, Bool.and_self, if_true, forall_const]
        rw [show (wtx.tested chain).cleared.toCTransaction = (wtx.tested chain).toCTransaction from rfl,
          show (wtx.tested chain).cleared.immatureCredit = (wtx.tested chain).immatureCredit.clear from rfl,
          Memo.current_clear.read_answer, Memo.read_answer_iff, kept, transaction]
        rfl
      · simp [deep]

end

/-! ## Runs -/

/-- An access to a wallet transaction, or a change of the wallet that is followed by MarkDirty. The
chain may be another one at every access. -/
inductive Access where
  | getDebit
  | getChange
  | getCredit (chain : MainChain) (fUseCache : Bool)
  | getImmatureCredit (chain : MainChain) (fUseCache : Bool)
  | getAvailableCredit (chain : MainChain) (fUseCache : Bool)
  | markSpent (nOut : Nat)
  | updateSpent (vfNewSpent : List Bool)
  | bindWallet (next : TxWallet)
  | changeWallet (next : TxWallet)

variable [Hashing]

/-- One access to the transaction in the wallet that its `pwallet` points to. -/
def perform (state : CWalletTx × TxWallet) : Access → CWalletTx × TxWallet
  | .getDebit => ((state.1.getDebit state.2).1, state.2)
  | .getChange => ((state.1.getChange state.2).1, state.2)
  | .getCredit chain fUseCache => ((state.1.getCredit chain state.2 fUseCache).1, state.2)
  | .getImmatureCredit chain fUseCache => ((state.1.getImmatureCredit chain state.2 fUseCache).1, state.2)
  | .getAvailableCredit chain fUseCache => ((state.1.getAvailableCredit chain state.2 fUseCache).1, state.2)
  | .markSpent nOut => ((state.1.markSpent nOut).1, state.2)
  | .updateSpent vfNewSpent => ((state.1.updateSpent vfNewSpent).1, state.2)
  | .bindWallet next => (state.1.bindWallet, next)
  | .changeWallet next => (state.1.markDirty, next)

def run (accesses : List Access) (state : CWalletTx × TxWallet) : CWalletTx × TxWallet :=
  accesses.foldl perform state

/-- No wallet change gives another credit to the transaction while its immature credit is cached. -/
def Access.Keeps (state : CWalletTx × TxWallet) : Access → Prop
  | .bindWallet next | .changeWallet next =>
      state.1.immatureCredit.valid = true →
        next.getCredit state.1.toCTransaction = state.2.getCredit state.1.toCTransaction
  | _ => True

/-- Every access of the run keeps the cached immature credit. -/
def KeepsAll : List Access → CWalletTx × TxWallet → Prop
  | [], _ => True
  | access :: rest, state => access.Keeps state ∧ KeepsAll rest (perform state access)

theorem perform_current {state : CWalletTx × TxWallet} (current : state.1.Current state.2) (access : Access) :
    (perform state access).1.Current (perform state access).2 := by
  cases access with
  | getDebit => exact current.getDebit
  | getChange => exact current.getChange
  | getCredit chain fUseCache => exact current.getCredit
  | getImmatureCredit chain fUseCache => exact current.getImmatureCredit
  | getAvailableCredit chain fUseCache => exact current.getAvailableCredit
  | markSpent nOut => exact current.markSpent nOut
  | updateSpent vfNewSpent => exact current.updateSpent vfNewSpent
  | bindWallet next => exact markDirty_current
  | changeWallet next => exact markDirty_current

/-- Apart from GetImmatureCredit and the wallet changes nothing touches the cached immature credit. -/
theorem perform_immature {state : CWalletTx × TxWallet} (kept : state.1.ImmatureCurrent state.2)
    {access : Access} (keeps : access.Keeps state) :
    (perform state access).1.ImmatureCurrent (perform state access).2 := by
  cases access with
  | getDebit =>
      simp only [perform, CWalletTx.getDebit]
      split <;> exact kept
  | getChange => exact kept
  | getCredit chain fUseCache =>
      simp only [perform, CWalletTx.getCredit]
      rw [tested_eq]
      split <;> exact kept
  | getImmatureCredit chain fUseCache =>
      simp only [perform, CWalletTx.getImmatureCredit]
      rw [tested_eq]
      split
      · exact Memo.Current.read kept
      · exact kept
  | getAvailableCredit chain fUseCache =>
      simp only [perform, CWalletTx.getAvailableCredit]
      rw [tested_eq]
      split <;> exact kept
  | markSpent nOut =>
      simp only [perform, CWalletTx.markSpent]
      split
      · exact kept
      · split <;> exact kept
  | updateSpent vfNewSpent =>
      simp only [perform, CWalletTx.updateSpent]
      split <;> exact kept
  | bindWallet next =>
      intro valid
      exact (keeps valid).trans (kept valid)
  | changeWallet next =>
      intro valid
      exact (keeps valid).trans (kept valid)

theorem run_current {accesses : List Access} {state : CWalletTx × TxWallet} (current : state.1.Current state.2) :
    (run accesses state).1.Current (run accesses state).2 := by
  induction accesses generalizing state with
  | nil => exact current
  | cons access rest ih => exact ih (perform_current current access)

theorem run_immature {accesses : List Access} {state : CWalletTx × TxWallet}
    (kept : state.1.ImmatureCurrent state.2) (keeps : KeepsAll accesses state) :
    (run accesses state).1.ImmatureCurrent (run accesses state).2 := by
  induction accesses generalizing state with
  | nil => exact kept
  | cons access rest ih => exact ih (perform_immature kept keeps.1) keeps.2

/-- The getters of the amounts that MarkDirty clears answer as if the five cached-flags were cleared first. -/
def Fresh (state : CWalletTx × TxWallet) : Prop :=
  (state.1.getDebit state.2).2 = (state.1.cleared.getDebit state.2).2 ∧
  (state.1.getChange state.2).2 = (state.1.cleared.getChange state.2).2 ∧
  ∀ (chain : MainChain) (fUseCache : Bool),
    (state.1.getCredit chain state.2 fUseCache).2 = (state.1.cleared.getCredit chain state.2 fUseCache).2 ∧
    (state.1.getAvailableCredit chain state.2 fUseCache).2 =
      (state.1.cleared.getAvailableCredit chain state.2 fUseCache).2

/-- So does GetImmatureCredit. -/
def ImmatureFresh (state : CWalletTx × TxWallet) : Prop :=
  ∀ (chain : MainChain) (fUseCache : Bool),
    (state.1.getImmatureCredit chain state.2 fUseCache).2 =
      (state.1.cleared.getImmatureCredit chain state.2 fUseCache).2

theorem Current.fresh {state : CWalletTx × TxWallet} (current : state.1.Current state.2) : Fresh state := by
  refine ⟨current.debit_answer, current.change_answer, fun chain fUseCache => ⟨?_, ?_⟩⟩
  · exact current.credit_answer chain fUseCache
  · exact current.available_answer chain fUseCache

/-- In a run from a transaction without cached amounts, the debit, the credit, the available credit
and the change are never stale, and neither is the immature credit where every wallet change keeps it. -/
theorem cachedAmounts_fresh (wtx : CWalletTx) (w : TxWallet) (accesses : List Access) :
    Fresh (run accesses (wtx.cleared, w)) ∧
      (KeepsAll accesses (wtx.cleared, w) → ImmatureFresh (run accesses (wtx.cleared, w))) := by
  refine ⟨(run_current current_cleared).fresh, fun keeps chain fUseCache => ?_⟩
  have kept : (run accesses (wtx.cleared, w)).1.ImmatureCurrent (run accesses (wtx.cleared, w)).2 :=
    run_immature Memo.current_clear keeps
  exact (immature_answer_iff chain fUseCache).mpr fun _ _ _ => kept

end CWalletTx

namespace Sample

/-- The script that pays to the key with the hash zero. -/
def toKeyZero : CScript :=
  [0x76, 0xa9, 0x14] ++ List.replicate 20 0 ++ [0x88, 0xac]

def reward : CTransaction :=
  ⟨1, [⟨.null, [], 0⟩], [⟨50, toKeyZero⟩], 0, []⟩

def tip : CBlockIndex :=
  { CBlockIndex.ofHeader ⟨1, 0, reward.getHash, 0, 0, 0⟩ with phashBlock := some 1 }

/-- A chain of one block, whose only transaction is `reward`. -/
def oneBlock : MainChain where
  mapBlockIndex hash := if hash = 1 then some tip else none
  pindexBest := 1
  best := tip
  nBestHeight := 0
  adjustedTime := 0
  height_le := by
    intro hash pindex found _
    split at found
    · cases found
      exact Int.le_refl _
    · cases found

def minedReward : CWalletTx := { CWalletTx.ofTransaction reward with hashBlock := 1, nIndex := 0 }

def walletWith (haveKey : CKeyID → Bool) : TxWallet := ⟨⟨haveKey, ∅⟩, ∅, ∅⟩

end Sample

open Sample in
/-- A key that the reward does not pay to leaves its immature credit as it is. -/
theorem CWalletTx.cachedAmounts_fresh_reward :
    ImmatureFresh (run [.getImmatureCredit oneBlock true, .changeWallet (walletWith fun id => id ≤ 1)]
      (minedReward.cleared, walletWith fun id => id = 0)) :=
  (cachedAmounts_fresh minedReward (walletWith fun id => id = 0)
    [.getImmatureCredit oneBlock true, .changeWallet (walletWith fun id => id ≤ 1)]).2
    ⟨trivial, fun _ => by decide +kernel, trivial⟩

open Sample in
/-- A key that is added after the immature credit has been read does not show in it. -/
theorem CWalletTx.immatureCredit_stale :
    ¬ ∀ (wtx : CWalletTx) (w : TxWallet) (accesses : List Access),
      Fresh (run accesses (wtx.cleared, w)) ∧ ImmatureFresh (run accesses (wtx.cleared, w)) := by
  intro always
  have fresh := (always minedReward (walletWith fun _ => false)
    [.getImmatureCredit oneBlock true, .changeWallet (walletWith fun _ => true)]).2 oneBlock true
  exact absurd fresh (by decide +kernel)

end BitCrystal
