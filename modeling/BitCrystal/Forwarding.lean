import BitCrystal.MempoolInputs

namespace BitCrystal

open Data

/-! # Nothing that a node forwards is punished -/

/-- The score that a failure leaves in the validation state. -/
def Failure.nDoS : Failure → Nat
  | .dos level _ => level
  | _ => 0

/-- A failure without a score. -/
def Failure.Unpunished (failure : Failure) : Prop := failure.nDoS = 0

/-! ## Two states of one network -/

def SameOutputs [Hashing] (network : Set CTransaction) : Prop :=
  ∀ left ∈ network, ∀ right ∈ network, left.getHash = right.getHash → left.vout = right.vout

/-- What the view holds under a txid are outputs of a transaction with this txid. -/
def CoinsView.OfNetwork [Hashing] (network : Set CTransaction) (view : CoinsView) : Prop :=
  ∀ outpoint txout, view.output outpoint = some txout →
    ∃ tx ∈ network, tx.getHash = outpoint.hash ∧ tx.vout[outpoint.n.toNat]? = some txout

/-- A chain state and a memory pool with transactions of the network. -/
structure CTxMemPool.OfNetwork [Hashing] (network : Set CTransaction) (context : AcceptContext) (pool : CTxMemPool) :
    Prop where
  coins : context.pcoinsTip.OfNetwork network
  stored : ∀ (hash : UInt256) (tx : CTransaction), pool.mapTx[hash]? = some tx → tx ∈ network ∧ tx.getHash = hash

section

variable [Hashing] {network : Set CTransaction}

theorem CTxMemPool.OfNetwork.view {context : AcceptContext} {pool : CTxMemPool}
    (ofNetwork : pool.OfNetwork network context) : (pool.coinsView context.pcoinsTip).OfNetwork network := by
  intro outpoint txout present
  obtain ⟨coins, found, output⟩ := CoinsView.output_eq_some.mp present
  simp only [CTxMemPool.coinsView, Option.or_eq_some_iff, Option.map_eq_some_iff] at found
  rcases found with inTip | ⟨-, tx, inPool, rfl⟩
  · exact ofNetwork.coins outpoint txout (CoinsView.output_eq_some.mpr ⟨coins, inTip, output⟩)
  · obtain ⟨member, hash⟩ := ofNetwork.stored _ _ inPool
    exact ⟨tx, member, hash, (CCoins.output_eq_some.mp output).1⟩

theorem CoinsView.OfNetwork.same_output (same : SameOutputs network) {here there : CoinsView}
    (genuine : here.OfNetwork network) (genuine' : there.OfNetwork network) {outpoint : COutPoint} {txout txout' : CTxOut}
    (present : here.output outpoint = some txout) (present' : there.output outpoint = some txout') :
    txout' = txout := by
  obtain ⟨tx, member, hash, output⟩ := genuine outpoint txout present
  obtain ⟨tx', member', hash', output'⟩ := genuine' outpoint txout' present'
  have outputs := same tx member tx' member' (hash.trans hash'.symm)
  rw [outputs, output'] at output
  exact Option.some.inj output

/-! ## CheckInputs in two views -/

end

namespace CTransaction

variable {here there : CoinsView} {tx : CTransaction}

def FindsSame (here there : CoinsView) (inputs : List CTxIn) : Prop :=
  ∀ txin ∈ inputs, ∃ prev, here.output txin.prevout = some prev ∧ there.output txin.prevout = some prev

theorem vout_of_output {view : CoinsView} {txin : CTxIn} {prev : CTxOut}
    (present : view.output txin.prevout = some prev) :
    ∃ coins, view.coins txin.prevout.hash = some coins ∧ coins.vout[txin.prevout.n.toNat]? = some prev := by
  obtain ⟨coins, found, output⟩ := CoinsView.output_eq_some.mp present
  exact ⟨coins, found, (CCoins.output_eq_some.mp output).1⟩

theorem checkInput_follows (finds : FindsSame here there tx.vin) (nHeight nHeight' : Int) {txin : CTxIn}
    (member : txin ∈ tx.vin) (nValueIn : Int) :
    Follows Failure.Unpunished (checkInput here nHeight nValueIn txin) (checkInput there nHeight' nValueIn txin) := by
  obtain ⟨prev, present, present'⟩ := finds txin member
  obtain ⟨coins, found, output⟩ := vout_of_output present
  obtain ⟨coins', found', output'⟩ := vout_of_output present'
  unfold checkInput
  simp only [found, found', output, output', expect, ok_bind]
  refine Follows.bind ?_ fun _ => .refl _
  exact Follows.require rfl

theorem getOutputFor_unpunished (view : CoinsView) (txin : CTxIn) :
    Sat (getOutputFor view txin) (fun _ => True) Failure.Unpunished := by
  refine Sat.weaken (Sat.expect ?_) fun _ _ => trivial
  rfl

theorem addInt64_unpunished (a b : Int) : Sat (addInt64 a b) (fun _ => True) Failure.Unpunished := by
  unfold addInt64
  split
  · trivial
  · rfl

theorem subInt64_unpunished (a b : Int) : Sat (subInt64 a b) (fun _ => True) Failure.Unpunished := by
  unfold subInt64
  split
  · trivial
  · rfl

theorem getValueIn_unpunished (tx : CTransaction) (view : CoinsView) :
    Sat (tx.getValueIn view) (fun _ => True) Failure.Unpunished := by
  unfold getValueIn
  split
  · trivial
  · refine Sat.foldlM (fun _ _ => True) (fun nResult txin rest _ => ?_) tx.vin 0 trivial
    exact (getOutputFor_unpunished view txin).bind fun prev _ => addInt64_unpunished nResult prev.value

variable [ScriptMachine]

theorem areInputsStandard_unpunished (tx : CTransaction) (view : CoinsView) :
    Sat (tx.areInputsStandard view) (fun _ => True) Failure.Unpunished := by
  unfold areInputsStandard
  split
  · trivial
  · refine Sat.foldlM (fun _ _ => True) (fun standard input rest _ => ?_) tx.vin.zipIdx true trivial
    exact (getOutputFor_unpunished view input.1).bind fun prev _ => Sat.of_pure trivial

omit [ScriptMachine] in
theorem scriptCheck_follows (finds : FindsSame here there tx.vin) (flags : UInt32) {input : CTxIn × Nat}
    (member : input ∈ tx.vin.zipIdx) :
    Follows Failure.Unpunished (tx.scriptCheck here flags input) (tx.scriptCheck there flags input) := by
  obtain ⟨prev, present, present'⟩ := finds input.1 (List.mem_of_getElem? (List.mem_zipIdx_iff_getElem?.mp member))
  obtain ⟨coins, found, output⟩ := vout_of_output present
  obtain ⟨coins', found', output'⟩ := vout_of_output present'
  unfold scriptCheck
  simp only [found, found', output, output', expect, ok_bind]
  exact .refl _

/-- What CheckInputs accepts in one view it does not punish in another one with the same outputs. -/
theorem checkInputs_follows (genuine : tx.haveInputs there = true → FindsSame here there tx.vin)
    (blocks blocks' : BlockMap) (flags : UInt32) :
    Follows Failure.Unpunished (tx.checkInputs blocks here true flags false)
      (tx.checkInputs blocks' there true flags false) := by
  unfold checkInputs
  split
  · exact .refl _
  · intro result run
    obtain ⟨_, -, withInputs⟩ := bind_eq_ok.mp run
    obtain ⟨pindexBest, -, rest⟩ := bind_eq_ok.mp withInputs
    refine Sat.bind (Sat.require ?_) fun _ available => Sat.bind (Sat.expect ?_) fun pindexBest' _ => ?_
    · rfl
    · rfl
    have finds := genuine available
    have loops := Follows.foldlM
      (fun txin member nValueIn => checkInput_follows finds (pindexBest.nHeight + 1) (pindexBest'.nHeight + 1) member
        nValueIn) 0
    have checks := Follows.mapM fun input member => scriptCheck_follows finds flags member
    refine Follows.bind loops (fun nValueIn => ?_) result rest
    refine Follows.bind (.refl _) fun nValueOut => ?_
    refine Follows.bind (.refl _) fun _ => ?_
    refine Follows.bind (.refl _) fun nTxFee => ?_
    refine Follows.bind (.refl _) fun _ => ?_
    refine Follows.bind (.refl _) fun _ => ?_
    rw [if_pos rfl]
    exact Follows.bind checks fun _ => .refl _

end CTransaction

/-! ## accept in two states -/

section

variable [Hashing] [ScriptMachine] {network : Set CTransaction} {context context' : AcceptContext}
  {pool pool' next : CTxMemPool} {tx : CTransaction} {fLimitFree : Bool}

omit [ScriptMachine] in
/-- The inputs are available in both states: the same outputs. -/
theorem CTxMemPool.OfNetwork.findsSame (same : SameOutputs network) (ofNetwork : pool.OfNetwork network context)
    (ofNetwork' : pool'.OfNetwork network context') (loose : tx.isCoinBase = false)
    (available : tx.haveInputs (pool.coinsView context.pcoinsTip) = true)
    (available' : tx.haveInputs (pool'.coinsView context'.pcoinsTip) = true) :
    CTransaction.FindsSame (pool.coinsView context.pcoinsTip) (pool'.coinsView context'.pcoinsTip) tx.vin := by
  intro txin member
  have input : txin ∈ tx.spentInputs := by simpa [CTransaction.spentInputs, loose] using member
  obtain ⟨prev, present⟩ := CTransaction.haveInputs_iff.mp available txin input
  obtain ⟨prev', present'⟩ := CTransaction.haveInputs_iff.mp available' txin input
  have equal := ofNetwork.view.same_output same ofNetwork'.view present present'
  exact ⟨prev, present, equal ▸ present'⟩

theorem CTxMemPool.acceptInputs_unpunished (same : SameOutputs network) (ofNetwork : pool.OfNetwork network context)
    (ofNetwork' : pool'.OfNetwork network context') (loose : tx.isCoinBase = false)
    (passed : pool.acceptInputs context tx fLimitFree = .ok ()) (fLimitFree' : Bool) :
    Sat (pool'.acceptInputs context' tx fLimitFree') (fun _ => True) Failure.Unpunished := by
  unfold acceptInputs at passed
  simp only [bind_eq_ok, require_eq_ok, exists_const] at passed
  obtain ⟨_, _, available, _, _, _, _, _, nValueOut, valueOut, _, _, _, _, checks, scripts, _⟩ := passed
  have follows := CTransaction.checkInputs_follows
    (fun available' => ofNetwork.findsSame same ofNetwork' loose available available') context.mapBlockIndex
    context'.mapBlockIndex (SCRIPT_VERIFY_P2SH ||| SCRIPT_VERIFY_STRICTENC) checks scripts
  unfold acceptInputs
  dsimp only
  refine Sat.bind (Sat.require ?_) fun _ _ => Sat.bind (Sat.require ?_) fun _ _ => Sat.bind (Sat.require ?_) fun _ _ =>
    (CTransaction.areInputsStandard_unpunished tx _).bind fun standard _ => Sat.bind (Sat.require ?_) fun _ _ =>
    (CTransaction.getValueIn_unpunished tx _).bind fun nValueIn _ => ?_
  · rfl
  · rfl
  · rfl
  · rfl
  rw [valueOut, ok_bind]
  refine (CTransaction.subInt64_unpunished _ _).bind fun nFees _ => Sat.bind (Sat.require ?_) fun _ _ =>
    Sat.bind (Sat.require ?_) fun _ _ => follows.bind fun _ _ => Sat.of_pure trivial
  · rfl
  · rfl

/-- A transaction that one node takes into its pool costs it nothing at another node of the network,
whatever this node makes of it. -/
theorem forwarded_unpunished (same : SameOutputs network) (ofNetwork : pool.OfNetwork network context)
    (ofNetwork' : pool'.OfNetwork network context')
    (accepted : pool.accept context tx true fLimitFree = .ok next) (fCheckInputs' fLimitFree' : Bool) :
    ∀ failure, pool'.accept context' tx fCheckInputs' fLimitFree' = .error failure → failure.nDoS = 0 := by
  have taken := accepted
  simp only [CTxMemPool.accept, bind_eq_ok, require_eq_ok, exists_const] at taken
  obtain ⟨_, checked, loose, _⟩ := taken
  have inputs := (CTxMemPool.Accepted.of_accept accepted).inputs rfl
  have unpunished : Sat (pool'.accept context' tx fCheckInputs' fLimitFree') (fun _ => True) Failure.Unpunished := by
    unfold CTxMemPool.accept
    rw [checked, ok_bind, require_of loose, ok_bind]
    refine Sat.bind (Sat.require ?_) fun _ _ => Sat.bind (Sat.require ?_) fun _ _ => Sat.bind (Sat.require ?_) fun _ _ =>
      Sat.bind (Sat.require ?_) fun _ _ => ?_
    · rfl
    · rfl
    · rfl
    · rfl
    cases fCheckInputs' with
    | false => trivial
    | true =>
        have coinbase : tx.isCoinBase = false := by simpa using loose
        exact (CTxMemPool.acceptInputs_unpunished same ofNetwork ofNetwork' coinbase inputs fLimitFree').bind
          fun _ _ => Sat.of_pure trivial
  exact fun failure run => unpunished.of_error run

end

namespace Sample

/-- A node that has connected `payment`. -/
def paidContext : AcceptContext := ⟨settings, blocks, 1, paidView, false⟩

/-- A node that has not, for which `forward` spends an output of the pool or one that it misses. -/
def unpaidContext : AcceptContext := ⟨settings, blocks, 1, emptyView, false⟩

theorem paid_ofNetwork : CTxMemPool.empty.OfNetwork {payment} paidContext := by
  constructor
  · intro outpoint txout present
    obtain ⟨coins, found, output⟩ := CoinsView.output_eq_some.mp present
    simp only [paidContext, paidView] at found
    split at found
    · rename_i hash
      cases found
      exact ⟨payment, rfl, hash.symm, (CCoins.output_eq_some.mp output).1⟩
    · cases found
  · intro hash tx stored
    simp [CTxMemPool.empty] at stored

theorem unpaid_ofNetwork : CTxMemPool.empty.OfNetwork {payment} unpaidContext := by
  constructor
  · intro outpoint txout present
    obtain ⟨coins, found, _⟩ := CoinsView.output_eq_some.mp present
    cases found
  · intro hash tx stored
    simp [CTxMemPool.empty] at stored

end Sample

open Sample CTxMemPool in
/-- A node that misses the input refuses, without a score, what another node has accepted. -/
theorem forwarded_unpunished_forward : ∃ next,
    empty.accept paidContext forward true true = .ok next ∧
      ∀ failure, empty.accept unpaidContext forward true true = .error failure → failure.nDoS = 0 := by
  obtain ⟨next, accepted⟩ :=
    ok_of_isOk (show (empty.accept paidContext forward true true).isOk = true by decide +kernel)
  have same : SameOutputs {payment} := by
    rintro left rfl right rfl _
    rfl
  exact ⟨next, accepted, forwarded_unpunished same paid_ofNetwork unpaid_ofNetwork accepted true true⟩

end BitCrystal
