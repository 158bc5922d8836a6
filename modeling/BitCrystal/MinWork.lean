import BitCrystal.Retarget

namespace BitCrystal

open Data

/-! # The checkpoint test and the chains that AcceptBlock accepts -/

/-- CBlockIndex::GetBlockHeader. -/
def CBlockIndex.getBlockHeader (pindex : CBlockIndex) : CBlockHeader where
  nVersion := pindex.nVersion
  hashPrevBlock := pindex.pprev.getD 0
  hashMerkleRoot := pindex.hashMerkleRoot
  nTime := pindex.nTime
  nBits := pindex.nBits
  nNonce := pindex.nNonce

def CBlockIndex.showsWork (pindex : CBlockIndex) : Bool :=
  pindex.phashBlock.any fun hash => checkProofOfWork hash pindex.nBits

/-- Every block of the chain has shown its work, and AcceptBlock has accepted its
header behind the blocks before it. -/
def Accepted (settings : Settings) : List CBlockIndex → Prop
  | [] => False
  | [root] => root.nHeight = 0 ∧ root.showsWork
  | pindex :: pprev :: ancestors =>
      (pindex.nHeight = pprev.nHeight + 1 ∧ pindex.showsWork ∧
        (acceptHeader settings (pprev :: ancestors) pindex.nTime pindex.nBits).isOk) ∧
      Accepted settings (pprev :: ancestors)

instance decidableAccepted (settings : Settings) : DecidablePred (Accepted settings)
  | [] => inferInstanceAs (Decidable False)
  | [root] => inferInstanceAs (Decidable (root.nHeight = 0 ∧ root.showsWork))
  | pindex :: pprev :: ancestors =>
      have := decidableAccepted settings (pprev :: ancestors)
      inferInstanceAs (Decidable ((pindex.nHeight = pprev.nHeight + 1 ∧ pindex.showsWork ∧
        (acceptHeader settings (pprev :: ancestors) pindex.nTime pindex.nBits).isOk) ∧
        Accepted settings (pprev :: ancestors)))

/-- The blocks at which the difficulty is adjusted. -/
def retargets (blocks : List CBlockIndex) : Nat :=
  blocks.countP fun pindex => pindex.nHeight % nInterval = 0

section

variable {settings : Settings} {pindex pindexNew pcheckpoint : CBlockIndex} {later older ancestors : List CBlockIndex}

theorem CBlockIndex.showsWork_target (work : pindex.showsWork) :
    0 < setCompact pindex.nBits ∧ setCompact pindex.nBits ≤ bnProofOfWorkLimit := by
  rw [showsWork, Option.any_eq_true] at work
  obtain ⟨hash, _, checked⟩ := work
  simp only [checkProofOfWork, Bool.and_eq_true, decide_eq_true_eq] at checked
  exact checked.1

theorem Accepted.showsWork (accepted : Accepted settings (pindex :: ancestors)) : pindex.showsWork := by
  cases ancestors with
  | nil => exact accepted.2
  | cons pprev ancestors => exact accepted.1.2.1

theorem Accepted.tail (accepted : Accepted settings (pindexNew :: pindex :: ancestors)) :
    Accepted settings (pindex :: ancestors) :=
  accepted.2

theorem Accepted.suffix (accepted : Accepted settings (later ++ pcheckpoint :: older)) :
    Accepted settings (pcheckpoint :: older) := by
  induction later with
  | nil => exact accepted
  | cons pindex later ih =>
      cases later with
      | nil => exact accepted.2
      | cons next later => exact ih accepted.2

/-! ## How far one block moves the target -/

theorem retarget_le {nBits : UInt32} (natural : 0 ≤ setCompact nBits) (nActualTimespan : Int) :
    setCompact (retarget nBits nActualTimespan) ≤ 4 * setCompact nBits := by
  have hour : nTargetTimespan = 3600 := rfl
  unfold retarget
  generalize raised : (if nActualTimespan < nTargetTimespan / 4 then nTargetTimespan / 4 else nActualTimespan) = least
  dsimp only
  generalize bounded : (if nTargetTimespan * 4 < least then nTargetTimespan * 4 else least) = timespan
  have range : 0 ≤ timespan ∧ timespan ≤ 14400 := by
    rw [← bounded, ← raised, hour]
    split_ifs <;> omega
  have product : setCompact nBits * timespan ≤ setCompact nBits * 14400 :=
    Int.mul_le_mul_of_nonneg_left range.2 natural
  have nonneg : 0 ≤ setCompact nBits * timespan := Int.mul_nonneg natural range.1
  rw [hour, Int.tdiv_eq_ediv_of_nonneg nonneg]
  generalize setCompact nBits * timespan = grown at product nonneg ⊢
  split
  · have limit := (setCompact_getCompact_bounds (by decide) (Int.le_refl bnProofOfWorkLimit)).2
    omega
  · have kept := (setCompact_getCompact_bounds (n := grown / 3600) (by omega) (by omega)).2
    omega

theorem getNextWorkRequired_le (main : settings.fTestNet = false) {nTime nBits : UInt32}
    (natural : 0 ≤ setCompact pindex.nBits)
    (run : getNextWorkRequired settings (pindex :: ancestors) nTime = .ok nBits) :
    setCompact nBits ≤ (if (pindex.nHeight + 1) % nInterval = 0 then 4 else 1) * setCompact pindex.nBits := by
  unfold getNextWorkRequired at run
  dsimp only at run
  split at run
  · rename_i within
    rw [if_neg within, one_mul]
    simp only [main, Bool.false_eq_true, if_false, Except.ok.injEq] at run
    rw [run]
  · rename_i adjusted
    rw [if_pos (not_not.mp adjusted)]
    rw [bind_eq_ok] at run
    obtain ⟨pindexFirst, _, computed⟩ := run
    cases computed
    exact retarget_le natural _

theorem Accepted.target_le (main : settings.fTestNet = false)
    (accepted : Accepted settings (pindexNew :: (later ++ pcheckpoint :: older))) :
    setCompact pindexNew.nBits ≤ 4 ^ retargets (pindexNew :: later) * setCompact pcheckpoint.nBits := by
  -- by induction on the blocks behind the checkpoint, from the new block down
  have step {pindexNew pprev : CBlockIndex} {ancestors : List CBlockIndex}
      (accepted : Accepted settings (pindexNew :: pprev :: ancestors)) :
      setCompact pindexNew.nBits ≤ 4 ^ retargets [pindexNew] * setCompact pprev.nBits := by
    obtain ⟨⟨height, _, header⟩, before⟩ := accepted
    obtain ⟨done, run⟩ := ok_of_isOk header
    rw [acceptHeader, bind_eq_ok] at run
    obtain ⟨nWorkRequired, required, run⟩ := run
    simp only [bind_eq_ok, require_eq_ok] at run
    obtain ⟨_, rfl, _⟩ := run
    have grown := getNextWorkRequired_le main (CBlockIndex.showsWork_target before.showsWork).1.le required
    rw [retargets, List.countP_singleton, height]
    split <;> simp_all
  induction later generalizing pindexNew with
  | nil => exact step accepted
  | cons pindex later ih =>
      have below := ih accepted.tail
      have last := step accepted
      have split : retargets (pindexNew :: pindex :: later) = retargets [pindexNew] + retargets (pindex :: later) := by
        unfold retargets
        rw [← List.countP_append, List.singleton_append]
      calc setCompact pindexNew.nBits ≤ 4 ^ retargets [pindexNew] * setCompact pindex.nBits := last
        _ ≤ 4 ^ retargets [pindexNew] * (4 ^ retargets (pindex :: later) * setCompact pcheckpoint.nBits) := by gcongr
        _ = 4 ^ retargets (pindexNew :: pindex :: later) * setCompact pcheckpoint.nBits := by
            rw [split, pow_add, mul_assoc]

/-! ## The checkpoint test -/

/-- The time is not before the checkpoint, and the target is at most the one that every
begun period of four hours can have made four times larger. -/
def WithinMinWork (settings : Settings) (pcheckpoint pindexNew : CBlockIndex) : Prop :=
  let deltaTime := pindexNew.getBlockTime - pcheckpoint.getBlockTime
  0 ≤ deltaTime ∧ (settings.fTestNet ∧ nTargetSpacing * 2 < deltaTime ∨
    setCompact pindexNew.nBits ≤ 4 ^ startedPeriods deltaTime * setCompact pcheckpoint.nBits)

theorem checkpointTest_iff {hashBestChain : UInt256} (base : 0 < setCompact pcheckpoint.nBits)
    (limited : setCompact pindexNew.nBits ≤ bnProofOfWorkLimit) :
    checkpointTest settings (some pcheckpoint) hashBestChain pindexNew.getBlockHeader = .ok () ↔
      pindexNew.getBlockHeader.hashPrevBlock = hashBestChain ∨ WithinMinWork settings pcheckpoint pindexNew := by
  have time : pindexNew.getBlockHeader.getBlockTime = pindexNew.getBlockTime := rfl
  have bits : pindexNew.getBlockHeader.nBits = pindexNew.nBits := rfl
  unfold checkpointTest WithinMinWork
  dsimp only
  rw [time, bits]
  generalize pindexNew.getBlockTime - pcheckpoint.getBlockTime = deltaTime
  by_cases tip : pindexNew.getBlockHeader.hashPrevBlock = hashBestChain
  · rw [if_pos tip]
    exact ⟨fun _ => Or.inl tip, fun _ => rfl⟩
  · have limit : 0 ≤ bnProofOfWorkLimit := by decide
    have power : 0 < setCompact pcheckpoint.nBits * 4 ^ startedPeriods deltaTime := by positivity
    have required : setCompact pindexNew.nBits ≤ setCompact (computeMinWork settings pcheckpoint.nBits deltaTime) ↔
        settings.fTestNet ∧ nTargetSpacing * 2 < deltaTime ∨
          setCompact pindexNew.nBits ≤ 4 ^ startedPeriods deltaTime * setCompact pcheckpoint.nBits := by
      rw [computeMinWork_eq base, mul_comm (4 ^ _) (setCompact pcheckpoint.nBits)]
      by_cases special : settings.fTestNet ∧ nTargetSpacing * 2 < deltaTime
      · rw [if_pos special, setCompact_le_getCompact_iff limit (Int.le_refl _)]
        exact ⟨fun _ => Or.inl special, fun _ => limited⟩
      · rw [if_neg special, setCompact_le_getCompact_iff (le_min power.le limit) (min_le_right _ _), le_min_iff]
        exact ⟨fun below => Or.inr below.1, fun below => ⟨below.resolve_left special, limited⟩⟩
    rw [if_neg tip, bind_eq_ok]
    simp only [require_eq_ok, exists_const, required]
    exact ⟨fun within => Or.inr within, fun within => within.resolve_left tip⟩

/-- GetLastCheckpoint finds no checkpoint, so ProcessBlock rejects no block for it.  With
the checkpoint of its tree ComputeMinWork accepts a block exactly within the fourfold
growth of every four hours begun since, which is so as long as there have been no
more retargets than that. -/
theorem checkpointTest_accepts_iff (accepted : Accepted settings (pindexNew :: (later ++ pcheckpoint :: older)))
    (fCheckpoints : Bool) (mapBlockIndex : BlockMap) (hashBestChain : UInt256) :
    checkpointTest settings (getLastCheckpoint settings fCheckpoints mapBlockIndex) hashBestChain
        pindexNew.getBlockHeader = .ok () ∧
      (checkpointTest settings (some pcheckpoint) hashBestChain pindexNew.getBlockHeader = .ok () ↔
        pindexNew.getBlockHeader.hashPrevBlock = hashBestChain ∨ WithinMinWork settings pcheckpoint pindexNew) ∧
      (settings.fTestNet = false → pcheckpoint.getBlockTime ≤ pindexNew.getBlockTime →
        retargets (pindexNew :: later) ≤ startedPeriods (pindexNew.getBlockTime - pcheckpoint.getBlockTime) →
        checkpointTest settings (some pcheckpoint) hashBestChain pindexNew.getBlockHeader = .ok ()) := by
  have own := CBlockIndex.showsWork_target accepted.showsWork
  have base : 0 < setCompact pcheckpoint.nBits := by
    have chain : Accepted settings ((pindexNew :: later) ++ pcheckpoint :: older) := accepted
    exact (CBlockIndex.showsWork_target chain.suffix.showsWork).1
  refine ⟨by rw [getLastCheckpoint_eq_none]; rfl, checkpointTest_iff base own.2, fun main ordered few => ?_⟩
  refine (checkpointTest_iff base own.2).mpr (Or.inr ⟨by omega, Or.inr ?_⟩)
  calc setCompact pindexNew.nBits ≤ 4 ^ retargets (pindexNew :: later) * setCompact pcheckpoint.nBits :=
        accepted.target_le main
    _ ≤ 4 ^ startedPeriods (pindexNew.getBlockTime - pcheckpoint.getBlockTime) * setCompact pcheckpoint.nBits := by
        gcongr
        norm_num

end

/-! ## Samples -/

namespace Sample

def mainNetwork : Settings where
  fTestNet := false
  fTxIndex := false
  nScriptCheckThreads := 0
  nMinRelayTxFee := 0
  nCoinCacheSize := 0
  adjustedTime := 0

/-- The times of a chain: two quick intervals, a slow one up to block 179, and then
one of two hours. -/
def slowingTime (nHeight : Nat) : Nat :=
  if nHeight < 120 then 1000000 + nHeight
  else if nHeight < 180 then 1000200 + 250 * (nHeight - 120)
  else 1015000 + 120 * (nHeight - 180)

def slowingBits (nHeight : Nat) : UInt32 :=
  if nHeight < 60 then 0x1e0fffff
  else if nHeight < 120 then 0x1e03ffff
  else if nHeight < 180 then 0x1e00ffff
  else if nHeight < 240 then 0x1e03fffc
  else 0x1e07ddd6

def slowingBlock (nHeight : Nat) : CBlockIndex where
  phashBlock := some (BitVec.ofNat 256 nHeight)
  pprev := some (BitVec.ofNat 256 (nHeight - 1))
  pnext := none
  nHeight := nHeight
  nFile := 0
  nDataPos := 0
  nUndoPos := 0
  nChainWork := 0
  nTx := 1
  nChainTx := 0
  nStatus := 0
  nVersion := 2
  hashMerkleRoot := 0
  nTime := UInt32.ofNat (slowingTime nHeight)
  nBits := slowingBits nHeight
  nNonce := 0

/-- The blocks from `first` on, the last one at the front. -/
def slowingBlocks (first count : Nat) : List CBlockIndex :=
  (List.range' first count).reverse.map slowingBlock

end Sample

open Sample

/-- One block behind its checkpoint. -/
theorem checkpointTest_accepts_sample :
    checkpointTest mainNetwork (getLastCheckpoint mainNetwork true fun _ => none) 0
        (slowingBlock 2).getBlockHeader = .ok () ∧
      (checkpointTest mainNetwork (some (slowingBlock 1)) 0 (slowingBlock 2).getBlockHeader = .ok () ↔
        (slowingBlock 2).getBlockHeader.hashPrevBlock = 0 ∨
          WithinMinWork mainNetwork (slowingBlock 1) (slowingBlock 2)) ∧
      checkpointTest mainNetwork (some (slowingBlock 1)) 0 (slowingBlock 2).getBlockHeader = .ok () := by
  have accepted : Accepted mainNetwork (slowingBlock 2 :: ([] ++ slowingBlock 1 :: slowingBlocks 0 1)) := by
    decide
  obtain ⟨disabled, exact, enough⟩ := checkpointTest_accepts_iff accepted true (fun _ => none) 0
  exact ⟨disabled, exact, enough rfl (by decide) (by decide)⟩

/-- Two retargets follow the checkpoint within little more than two hours: the first one
is for the slow interval that ends with the checkpoint itself. -/
theorem checkpointTest_rejects_accepted :
    Accepted mainNetwork (slowingBlocks 180 61 ++ slowingBlock 179 :: slowingBlocks 0 179) ∧
      (slowingBlocks 180 61).head? = some (slowingBlock 240) ∧
      checkpointTest mainNetwork (some (slowingBlock 179)) 0 (slowingBlock 240).getBlockHeader =
        .error (.dos 100 "ProcessBlock() : block with too little proof-of-work") := by
  refine ⟨by decide +kernel, by decide +kernel, ?_⟩
  rfl

end BitCrystal
