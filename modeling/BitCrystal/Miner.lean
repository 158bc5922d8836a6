import BitCrystal.GetWork

namespace BitCrystal

open Data

/-! # The search of BitcoinMiner -/

/-- `CBigNum::getuint256`, which drops the sign. -/
def getuint256 (n : Int) : UInt256 := BitVec.ofNat 256 n.natAbs

/-- `CBigNum().SetCompact(nBits).getuint256()` -/
def hashTargetOf (nBits : UInt32) : UInt256 := getuint256 (setCompact nBits)

/-- What the thread meets at the end of a turn. -/
structure MinerTurn where
  interrupted : Bool
  /-- `!vNodes.empty()` -/
  fPeers : Bool
  nTransactionsUpdated : UInt32
  /-- `GetTime()` -/
  time : Int
  pindexBest : UInt256
  adjustedTime : Int

/-- What is fixed before the search begins. -/
structure MinerJob where
  settings : Settings
  getHash : CBlockHeader → UInt256
  pindexPrev : WorkTip
  nTransactionsUpdatedLast : UInt32
  nStart : Int

/-- Why the search is left without a block. -/
inductive MinerStop where
  | interrupted
  | noPeers
  | nonceLimit
  | transactions
  | newTip
  | failed (reason : Failure)
deriving DecidableEq

inductive MinerEnd where
  /-- `CheckWork(pblock, ...)` and the `break` behind it. -/
  | checkWork (pblock : CBlockHeader)
  | stopped (reason : MinerStop)
deriving DecidableEq

/-- The headers that were hashed, in order, and how the search came to its end. -/
structure MinerRun where
  hashed : List CBlockHeader
  outcome : MinerEnd
deriving DecidableEq

def CBlockHeader.nextNonce (pblock : CBlockHeader) : CBlockHeader := { pblock with nNonce := pblock.nNonce + 1 }

namespace MinerJob

/-- A turn from the interruption point on. -/
def checkTurn (job : MinerJob) (turn : MinerTurn) (pblock : CBlockHeader) : Except MinerStop CBlockHeader := do
  require (turn.interrupted = false) .interrupted
  require (turn.fPeers = true) .noPeers
  let pblock := pblock.nextNonce
  require (pblock.nNonce < 0xffff0000) .nonceLimit
  require (¬(turn.nTransactionsUpdated ≠ job.nTransactionsUpdatedLast ∧ 60 < turn.time - job.nStart)) .transactions
  require (job.pindexPrev.hash = turn.pindexBest) .newTip
  (updateTime job.settings job.pindexPrev turn.adjustedTime pblock).mapError .failed

/-- The loop of the search, which may go on for `fuel` turns. -/
def search (job : MinerJob) (turns : Nat → MinerTurn) : (fuel i : Nat) → CBlockHeader → (hashTarget : UInt256) → MinerRun
  | 0, _, _, _ => ⟨[], .stopped (.failed .endless)⟩
  | fuel + 1, i, pblock, hashTarget =>
      if job.getHash pblock ≤ hashTarget then ⟨[pblock], .checkWork pblock⟩
      else
        match job.checkTurn (turns i) pblock.nextNonce with
        | .error reason => ⟨[pblock], .stopped reason⟩
        | .ok next =>
            let hashTarget := if job.settings.fTestNet then hashTargetOf next.nBits else hashTarget
            let rest := job.search turns fuel (i + 1) next hashTarget
            { rest with hashed := pblock :: rest.hashed }

/-- CreateNewBlock begins the nonces of a template with zero. -/
def mine (job : MinerJob) (turns : Nat → MinerTurn) (fuel : Nat) (pblock : CBlockHeader) : MinerRun :=
  job.search turns fuel 0 { pblock with nNonce := 0 } (hashTargetOf pblock.nBits)

end MinerJob

theorem createNewBlock_nNonce {settings : Settings} {pindexPrev : WorkTip} {parts : TemplateParts}
    {pblock : CBlockTemplate} (run : createNewBlock settings pindexPrev parts = .ok pblock) : pblock.header.nNonce = 0 := by
  simp only [createNewBlock, bind_eq_ok, pure_eq_ok] at run
  obtain ⟨header, timed, nBits, _, nValue, _, _, _, rfl⟩ := run
  obtain ⟨_, rfl, _⟩ := updateTime_eq_ok timed
  rfl

/-! ## CheckWork -/

/-- The effects of CheckWork on the key pool and the wallet, and its answer. -/
structure CheckedWork where
  keptKey : Bool
  counted : Bool
  answer : Bool
deriving DecidableEq

/-- `processBlock` is whether ProcessBlock takes the block. -/
def checkWork (getHash : CBlockHeader → UInt256) (hashBestChain : UInt256) (processBlock : CBlockHeader → Bool)
    (pblock : CBlockHeader) : CheckedWork :=
  if getHash pblock > hashTargetOf pblock.nBits then ⟨false, false, false⟩
  else if pblock.hashPrevBlock ≠ hashBestChain then ⟨false, false, false⟩
  else ⟨true, true, processBlock pblock⟩

/-! ## Any search -/

namespace MinerJob

variable {job : MinerJob} {turns : Nat → MinerTurn} {fuel i : Nat} {pblock next : CBlockHeader} {hashTarget : UInt256}

theorem mapError_eq_ok {ε ε' α : Type} {f : ε → ε'} {computation : Except ε α} {value : α} :
    computation.mapError f = .ok value ↔ computation = .ok value := by
  cases computation <;> simp [Except.mapError]

theorem toNat_add_two {nNonce : UInt32} (small : nNonce.toNat < 0xffff0000) :
    (nNonce + 1 + 1).toNat = nNonce.toNat + 2 := by
  rw [UInt32.toNat_add, UInt32.toNat_add]
  change ((nNonce.toNat + 1) % 2 ^ 32 + 1) % 2 ^ 32 = _
  omega

theorem checkTurn_ok {turn : MinerTurn} (ran : job.checkTurn turn pblock = .ok next) :
    next.nNonce = pblock.nNonce + 1 ∧ next.nNonce < 0xffff0000 ∧ next.hashPrevBlock = pblock.hashPrevBlock ∧
      (job.settings.fTestNet = false → next.nBits = pblock.nBits) := by
  simp only [checkTurn, bind_eq_ok, require_eq_ok, exists_const, mapError_eq_ok] at ran
  obtain ⟨-, -, below, -, -, timed⟩ := ran
  obtain ⟨nBits, rfl, bits⟩ := updateTime_eq_ok timed
  refine ⟨rfl, below, rfl, fun main => bits.resolve_right fun test => ?_⟩
  exact absurd test.1 (by rw [main]; decide)

theorem next_target {turn : MinerTurn} (ran : job.checkTurn turn pblock.nextNonce = .ok next) :
    (if job.settings.fTestNet then hashTargetOf next.nBits else hashTargetOf pblock.nBits) = hashTargetOf next.nBits := by
  by_cases test : job.settings.fTestNet = true
  · rw [if_pos test]
  · rw [if_neg test, (checkTurn_ok ran).2.2.2 (by simpa using test)]
    rfl

theorem search_hit (hit : job.getHash pblock ≤ hashTarget) :
    job.search turns (fuel + 1) i pblock hashTarget = ⟨[pblock], .checkWork pblock⟩ := by
  rw [search, if_pos hit]

theorem search_stop {reason : MinerStop} (miss : ¬job.getHash pblock ≤ hashTarget)
    (stopped : job.checkTurn (turns i) pblock.nextNonce = .error reason) :
    job.search turns (fuel + 1) i pblock hashTarget = ⟨[pblock], .stopped reason⟩ := by
  rw [search, if_neg miss, stopped]

theorem search_next (target : hashTarget = hashTargetOf pblock.nBits) (miss : ¬job.getHash pblock ≤ hashTarget)
    (ran : job.checkTurn (turns i) pblock.nextNonce = .ok next) :
    job.search turns (fuel + 1) i pblock hashTarget =
      { job.search turns fuel (i + 1) next (hashTargetOf next.nBits) with
        hashed := pblock :: (job.search turns fuel (i + 1) next (hashTargetOf next.nBits)).hashed } := by
  rw [search, if_neg miss, ran]
  dsimp only
  rw [target, next_target ran]

/-- What holds of a search from any header on, whatever cuts it short: the nonces go up by two, and a
block handed to CheckWork is the last one hashed, with a hash within its target. -/
theorem search_spec (target : hashTarget = hashTargetOf pblock.nBits) (small : pblock.nNonce < 0xffff0000) :
    (job.search turns fuel i pblock hashTarget).hashed.IsChain
        (fun before after => after.nNonce.toNat = before.nNonce.toNat + 2) ∧
      (∀ first ∈ (job.search turns fuel i pblock hashTarget).hashed.head?, first = pblock) ∧
      ∀ found, (job.search turns fuel i pblock hashTarget).outcome = .checkWork found →
        (job.search turns fuel i pblock hashTarget).hashed.getLast? = some found ∧
          job.getHash found ≤ hashTargetOf found.nBits ∧ found.hashPrevBlock = pblock.hashPrevBlock := by
  induction fuel generalizing i pblock hashTarget with
  | zero => exact ⟨.nil, nofun, nofun⟩
  | succ fuel ih =>
      by_cases hit : job.getHash pblock ≤ hashTarget
      · rw [search_hit hit]
        refine ⟨.singleton _, by simp, ?_⟩
        rintro found ⟨⟩
        exact ⟨rfl, target ▸ hit, rfl⟩
      · cases turned : job.checkTurn (turns i) pblock.nextNonce with
        | error reason =>
            rw [search_stop hit turned]
            exact ⟨.singleton _, by simp, nofun⟩
        | ok next =>
            obtain ⟨nonce, below, prev, -⟩ := checkTurn_ok turned
            obtain ⟨steps, first, ends⟩ := @ih (i + 1) next _ rfl below
            have forward : next.nNonce.toNat = pblock.nNonce.toNat + 2 := by
              have twice : next.nNonce = pblock.nNonce + 1 + 1 := nonce
              rw [twice, toNat_add_two small]
            rw [search_next target hit turned]
            refine ⟨List.isChain_cons.mpr ⟨fun after head => ?_, steps⟩, by simp, ?_⟩
            · rw [first after head]
              exact forward
            · intro found outcome
              obtain ⟨last, within, same⟩ := ends found outcome
              exact ⟨by rw [List.getLast?_cons, last]; rfl, within, same.trans prev⟩

/-- CheckWork never finds the hash of the block it is handed above the target. -/
theorem mine_checkWork {found : CBlockHeader} (hashBestChain : UInt256) (processBlock : CBlockHeader → Bool)
    (outcome : (job.mine turns fuel pblock).outcome = .checkWork found) :
    checkWork job.getHash hashBestChain processBlock found =
      if pblock.hashPrevBlock ≠ hashBestChain then ⟨false, false, false⟩ else ⟨true, true, processBlock found⟩ := by
  have start : ({ pblock with nNonce := 0 } : CBlockHeader).nNonce < 0xffff0000 := by
    change (0 : UInt32) < 0xffff0000
    decide
  obtain ⟨-, -, ends⟩ := @search_spec job turns fuel 0 _ _ rfl start
  obtain ⟨-, within, prev⟩ := ends found outcome
  rw [checkWork, if_neg fun above => BitVec.not_le.mpr above within, prev]

/-- A hash that is within every target. -/
theorem mine_checkWork_sample : ∃ (job : MinerJob) (found : CBlockHeader),
    checkWork job.getHash 5 (fun _ => true) found = ⟨true, true, true⟩ := by
  let job : MinerJob := ⟨⟨true, false, 0, 0, 0, 0⟩, fun _ => 0, ⟨5, .ofHeader ⟨1, 0, 0, 0, 0, 0⟩, []⟩, 0, 0⟩
  exact ⟨job, ⟨1, 5, 0, 0, 0x1e0fffff, 0⟩, @mine_checkWork job (fun _ => ⟨false, true, 0, 0, 5, 0⟩) 1
    ⟨1, 5, 0, 0, 0x1e0fffff, 7⟩ _ 5 (fun _ => true) (by decide +kernel)⟩

/-! ## A search that is not cut short -/

/-- The turns of a search without interruption, with peers, and with the same transactions and tip; the
tip has all blocks behind it. -/
structure Undisturbed (job : MinerJob) (turns : Nat → MinerTurn) : Prop where
  running (i : Nat) : (turns i).interrupted = false
  peers (i : Nat) : (turns i).fPeers = true
  transactions (i : Nat) : ¬((turns i).nTransactionsUpdated ≠ job.nTransactionsUpdatedLast ∧ 60 < (turns i).time - job.nStart)
  tip (i : Nat) : (turns i).pindexBest = job.pindexPrev.hash
  chain : job.pindexPrev.pindex.nHeight = job.pindexPrev.ancestors.length

theorem getNextWorkRequired_isOk (settings : Settings) {pindexLast : CBlockIndex} {ancestors : List CBlockIndex}
    (height : pindexLast.nHeight = ancestors.length) (nTime : UInt32) :
    ∃ nBits, getNextWorkRequired settings (pindexLast :: ancestors) nTime = .ok nBits := by
  have interval : nInterval = 60 := rfl
  unfold getNextWorkRequired
  dsimp only
  split
  · split
    · split
      · exact ⟨_, rfl⟩
      · exact ⟨_, rfl⟩
    · exact ⟨_, rfl⟩
  · rename_i whole
    have inside : (nInterval - 1).toNat < (pindexLast :: ancestors).length := by
      rw [interval] at whole ⊢
      rw [List.length_cons]
      omega
    rw [List.getElem?_eq_getElem inside]
    exact ⟨_, rfl⟩

theorem updateTime_isOk (undisturbed : job.Undisturbed turns) (pblock : CBlockHeader) (adjustedTime : Int) :
    ∃ next, updateTime job.settings job.pindexPrev adjustedTime pblock = .ok next := by
  unfold updateTime
  dsimp only
  split
  · obtain ⟨nBits, required⟩ := getNextWorkRequired_isOk job.settings undisturbed.chain
      (job.pindexPrev.newTime adjustedTime)
    rw [WorkTip.chain, required]
    exact ⟨_, rfl⟩
  · exact ⟨_, rfl⟩

/-- The header at the beginning of a turn that nothing keeps from coming. -/
def headerAt (job : MinerJob) (turns : Nat → MinerTurn) (pblock : CBlockHeader) : Nat → CBlockHeader
  | 0 => { pblock with nNonce := 0 }
  | i + 1 =>
      let before := job.headerAt turns pblock i
      ((updateTime job.settings job.pindexPrev (turns i).adjustedTime before.nextNonce.nextNonce).toOption).getD before

/-- The block with a nonce, when the search comes to it: two nonces pass in a turn. -/
def blockWith (job : MinerJob) (turns : Nat → MinerTurn) (pblock : CBlockHeader) (nonce : Nat) : CBlockHeader :=
  { job.headerAt turns pblock (nonce / 2) with nNonce := UInt32.ofNat nonce }

/-- A nonce is a solution when the hash of its block is at most the target. -/
def Solves (job : MinerJob) (turns : Nat → MinerTurn) (pblock : CBlockHeader) (nonce : Nat) : Prop :=
  job.getHash (job.blockWith turns pblock nonce) ≤ hashTargetOf (job.blockWith turns pblock nonce).nBits

/-- All nonces below the limit are hashed, each once and in order, before the search gives up, and CheckWork
is called with the first that is a solution. -/
structure SearchesAll (job : MinerJob) (turns : Nat → MinerTurn) (pblock : CBlockHeader) (run : MinerRun) : Prop where
  complete : (∀ found, run.outcome ≠ .checkWork found) → run.hashed.map (·.nNonce.toNat) = List.range 0xffff0000
  first (nonce : Nat) : nonce < 0xffff0000 → job.Solves turns pblock nonce →
    (∀ earlier < nonce, ¬job.Solves turns pblock earlier) → run.outcome = .checkWork (job.blockWith turns pblock nonce)

theorem headerAt_succ (undisturbed : job.Undisturbed turns) (pblock : CBlockHeader) (i : Nat) :
    updateTime job.settings job.pindexPrev (turns i).adjustedTime (job.headerAt turns pblock i).nextNonce.nextNonce =
      .ok (job.headerAt turns pblock (i + 1)) := by
  obtain ⟨next, timed⟩ := updateTime_isOk undisturbed (job.headerAt turns pblock i).nextNonce.nextNonce
    (turns i).adjustedTime
  rw [headerAt, timed]
  rfl

theorem headerAt_nNonce (undisturbed : job.Undisturbed turns) (pblock : CBlockHeader) {i : Nat} (bound : 2 * i ≤ 0xffff0000) :
    (job.headerAt turns pblock i).nNonce.toNat = 2 * i := by
  induction i with
  | zero => rfl
  | succ i ih =>
      obtain ⟨_, next, -⟩ := updateTime_eq_ok (headerAt_succ undisturbed pblock i)
      have nonce : (job.headerAt turns pblock (i + 1)).nNonce = (job.headerAt turns pblock i).nNonce + 1 + 1 := by
        rw [next]
        rfl
      have before := ih (by omega)
      rw [nonce, toNat_add_two (by omega), before, Nat.mul_succ]

/-- A block with an even nonce is one that the loop hashes. -/
theorem blockWith_even (undisturbed : job.Undisturbed turns) {i : Nat} (bound : 2 * i ≤ 0xffff0000) :
    job.blockWith turns pblock (2 * i) = job.headerAt turns pblock i := by
  have half : 2 * i / 2 = i := Nat.mul_div_cancel_left i (by decide)
  rw [blockWith, half, ← headerAt_nNonce undisturbed pblock bound, UInt32.ofNat_toNat]

theorem checkTurn_eq (undisturbed : job.Undisturbed turns) (pblock : CBlockHeader) {i : Nat} (bound : 2 * i < 0xffff0000) :
    job.checkTurn (turns i) (job.headerAt turns pblock i).nextNonce =
      if 2 * (i + 1) < 0xffff0000 then .ok (job.headerAt turns pblock (i + 1)) else .error .nonceLimit := by
  have nonce : (job.headerAt turns pblock i).nextNonce.nextNonce.nNonce.toNat = 2 * (i + 1) := by
    have before := headerAt_nNonce undisturbed pblock bound.le
    have twice : (job.headerAt turns pblock i).nextNonce.nextNonce.nNonce =
        (job.headerAt turns pblock i).nNonce + 1 + 1 := rfl
    rw [twice, toNat_add_two (by omega), before, Nat.mul_succ]
  have limit : (job.headerAt turns pblock i).nextNonce.nextNonce.nNonce < 0xffff0000 ↔ 2 * (i + 1) < 0xffff0000 := by
    rw [UInt32.lt_iff_toNat_lt, nonce]
    rfl
  rw [checkTurn, require_of (undisturbed.running i), ok_bind, require_of (undisturbed.peers i), ok_bind]
  dsimp only
  by_cases below : 2 * (i + 1) < 0xffff0000
  · rw [require_of (limit.mpr below), ok_bind, require_of (undisturbed.transactions i), ok_bind,
      require_of (undisturbed.tip i).symm, ok_bind, headerAt_succ undisturbed pblock i, if_pos below]
    rfl
  · rw [require, if_neg (mt limit.mp below), error_bind, if_neg below]

theorem solves_even (undisturbed : job.Undisturbed turns) {i : Nat} (bound : 2 * i < 0xffff0000) :
    job.Solves turns pblock (2 * i) ↔
      job.getHash (job.headerAt turns pblock i) ≤ hashTargetOf (job.headerAt turns pblock i).nBits := by
  rw [Solves, blockWith_even undisturbed bound.le]

/-- From a turn on, the search finds the first solution among the even nonces. -/
theorem search_first (undisturbed : job.Undisturbed turns) {fuel i k : Nat} (later : i ≤ k) (bound : 2 * k < 0xffff0000)
    (enough : k < i + fuel) (solves : job.Solves turns pblock (2 * k))
    (first : ∀ j, i ≤ j → j < k → ¬job.Solves turns pblock (2 * j)) :
    (job.search turns fuel i (job.headerAt turns pblock i) (hashTargetOf (job.headerAt turns pblock i).nBits)).outcome =
      .checkWork (job.headerAt turns pblock k) := by
  induction fuel generalizing i with
  | zero => omega
  | succ fuel ih =>
      rcases Nat.eq_or_lt_of_le later with rfl | before
      · rw [search_hit ((solves_even undisturbed bound).mp solves)]
      · have here : 2 * i < 0xffff0000 := by omega
        have miss := mt (solves_even undisturbed here).mpr (first i le_rfl before)
        have turn := checkTurn_eq undisturbed pblock here
        rw [if_pos (by omega)] at turn
        rw [search_next rfl miss turn]
        exact ih before (by omega) fun j from_ => first j (by omega)

/-- Without a solution among the even nonces the search passes them all. -/
theorem search_none (undisturbed : job.Undisturbed turns) {fuel i : Nat} (bound : 2 * i < 0xffff0000)
    (enough : 0x7fff8000 ≤ i + fuel) (none : ∀ j, i ≤ j → 2 * j < 0xffff0000 → ¬job.Solves turns pblock (2 * j)) :
    job.search turns fuel i (job.headerAt turns pblock i) (hashTargetOf (job.headerAt turns pblock i).nBits) =
      ⟨(List.range' i (0x7fff8000 - i)).map (job.headerAt turns pblock), .stopped .nonceLimit⟩ := by
  induction fuel generalizing i with
  | zero => omega
  | succ fuel ih =>
      have miss := mt (solves_even undisturbed bound).mpr (none i le_rfl bound)
      have turn := checkTurn_eq undisturbed pblock bound
      by_cases below : 2 * (i + 1) < 0xffff0000
      · have count : 0x7fff8000 - i = (0x7fff8000 - (i + 1)) + 1 := by omega
        rw [if_pos below] at turn
        rw [search_next rfl miss turn, ih below (by omega) fun j from_ => none j (by omega), count, List.range'_succ,
          List.map_cons]
      · have count : 0x7fff8000 - i = 1 := by omega
        rw [if_neg below] at turn
        rw [search_stop miss turn, count]
        rfl

/-- What a whole search comes to: the first even solution, or all even nonces. -/
theorem mine_outcome (undisturbed : job.Undisturbed turns) (pblock : CBlockHeader) (enough : 0x7fff8000 ≤ fuel) :
    (∃ k, 2 * k < 0xffff0000 ∧ job.Solves turns pblock (2 * k) ∧ (∀ j < k, ¬job.Solves turns pblock (2 * j)) ∧
        (job.mine turns fuel pblock).outcome = .checkWork (job.headerAt turns pblock k)) ∨
      (∀ k, 2 * k < 0xffff0000 → ¬job.Solves turns pblock (2 * k)) ∧
        job.mine turns fuel pblock =
          ⟨(List.range' 0 0x7fff8000).map (job.headerAt turns pblock), .stopped .nonceLimit⟩ := by
  classical
  by_cases found : ∃ k, 2 * k < 0xffff0000 ∧ job.Solves turns pblock (2 * k)
  · obtain ⟨bound, solves⟩ := Nat.find_spec found
    have earlier : ∀ j < Nat.find found, ¬job.Solves turns pblock (2 * j) := fun j before solution =>
      Nat.find_min found before ⟨by omega, solution⟩
    exact .inl ⟨Nat.find found, bound, solves, earlier,
      search_first undisturbed (Nat.zero_le _) bound (by omega) solves fun j _ before => earlier j before⟩
  · have none : ∀ k, 2 * k < 0xffff0000 → ¬job.Solves turns pblock (2 * k) := fun k bound solution =>
      found ⟨k, bound, solution⟩
    exact .inr ⟨none, search_none undisturbed (by decide) (by omega) fun j _ bound => none j bound⟩

theorem blockWith_nNonce {nonce : Nat} (bound : nonce < 0xffff0000) :
    (job.blockWith turns pblock nonce).nNonce.toNat = nonce :=
  UInt32.toNat_ofNat_of_lt' (bound.trans (by decide))

/-- The search covers all nonces exactly when there is a solution and the first one is even: the odd
nonces are never hashed. -/
theorem mine_searchesAll_iff (undisturbed : job.Undisturbed turns) (enough : 0x7fff8000 ≤ fuel) :
    job.SearchesAll turns pblock (job.mine turns fuel pblock) ↔
      ∃ nonce < 0xffff0000, job.Solves turns pblock nonce ∧ nonce % 2 = 0 ∧
        ∀ earlier < nonce, ¬job.Solves turns pblock earlier := by
  classical
  constructor
  · intro searches
    rcases mine_outcome undisturbed pblock enough with ⟨k, bound, solves, -, outcome⟩ | ⟨-, run⟩
    · -- the first solution of all is the one that the loop comes to
      have some : ∃ nonce, job.Solves turns pblock nonce := ⟨2 * k, solves⟩
      have within : Nat.find some ≤ 2 * k := Nat.find_min' some solves
      have least := fun earlier => Nat.find_min (m := earlier) some
      have called := searches.first (Nat.find some) (by omega) (Nat.find_spec some) least
      have same : job.blockWith turns pblock (Nat.find some) = job.headerAt turns pblock k :=
        MinerEnd.checkWork.inj (called.symm.trans outcome)
      have nonce : (job.blockWith turns pblock (Nat.find some)).nNonce.toNat = Nat.find some :=
        blockWith_nNonce (within.trans_lt bound)
      rw [same, headerAt_nNonce undisturbed pblock bound.le] at nonce
      exact ⟨Nat.find some, by omega, Nat.find_spec some, by omega, least⟩
    · have nonces := searches.complete (by rw [run]; exact nofun)
      have count := congrArg List.length nonces
      rw [run, List.length_map, List.length_map, List.length_range', List.length_range] at count
      contradiction
  · rintro ⟨nonce, bound, solves, even, least⟩
    obtain ⟨k, rfl⟩ : ∃ k, nonce = 2 * k := ⟨nonce / 2, by omega⟩
    have outcome : (job.mine turns fuel pblock).outcome = .checkWork (job.headerAt turns pblock k) :=
      search_first undisturbed (Nat.zero_le k) bound (by omega) solves fun j _ before => least (2 * j) (by omega)
    refine ⟨fun gaveUp => absurd outcome (gaveUp _), fun other _ solvesOther leastOther => ?_⟩
    have same : other = 2 * k := by
      rcases Nat.lt_trichotomy other (2 * k) with before | same | after
      · exact absurd solvesOther (least other before)
      · exact same
      · exact absurd solves (leastOther (2 * k) after)
    rw [outcome, same, blockWith_even undisturbed bound.le]

/-- A search over the first block, for a hash function with the solutions given. -/
def sampleJob (solutions : List UInt32) : MinerJob where
  settings := ⟨false, false, 0, 0, 0, 1400000000⟩
  getHash pblock := if pblock.nNonce ∈ solutions then 0 else BitVec.allOnes 256
  pindexPrev := ⟨4, { CBlockIndex.ofHeader ⟨1, 3, 0, 1400000000, 0x1d00ffff, 0⟩ with phashBlock := some 4, nHeight := 0 }, []⟩
  nTransactionsUpdatedLast := 0
  nStart := 1400000060

def sampleTurns (_ : Nat) : MinerTurn := ⟨false, true, 0, 1400000060, 4, 1400000060⟩

def sampleHeader : CBlockHeader := ⟨112, 4, 0, 1400000060, 0x1d00ffff, 0⟩

theorem sample_undisturbed (solutions : List UInt32) : (sampleJob solutions).Undisturbed sampleTurns where
  running _ := rfl
  peers _ := rfl
  transactions _ := fun both => both.1 rfl
  tip _ := rfl
  chain := rfl

theorem mine_searchesAll_sample :
    (sampleJob [0]).SearchesAll sampleTurns sampleHeader ((sampleJob [0]).mine sampleTurns 0x7fff8000 sampleHeader) :=
  (mine_searchesAll_iff (sample_undisturbed [0]) le_rfl).mpr
    ⟨0, by decide, by unfold Solves; decide +kernel, rfl, fun _ before => absurd before (Nat.not_lt_zero _)⟩

/-- Nonce 1 is a solution, and CheckWork is called with nonce 2. -/
theorem mine_skips_nonce : (sampleJob [1, 2]).Undisturbed sampleTurns ∧
    ¬(sampleJob [1, 2]).SearchesAll sampleTurns sampleHeader
      ((sampleJob [1, 2]).mine sampleTurns 0x7fff8000 sampleHeader) := by
  refine ⟨sample_undisturbed [1, 2], fun searches => ?_⟩
  have solves : (sampleJob [1, 2]).Solves sampleTurns sampleHeader 1 := by
    unfold Solves
    decide +kernel
  have first : ∀ earlier < 1, ¬(sampleJob [1, 2]).Solves sampleTurns sampleHeader earlier := by
    intro earlier before
    obtain rfl : earlier = 0 := by omega
    unfold Solves
    decide +kernel
  have called : ((sampleJob [1, 2]).mine sampleTurns 0x7fff8000 sampleHeader).outcome =
      .checkWork ((sampleJob [1, 2]).headerAt sampleTurns sampleHeader 1) := by
    decide +kernel
  have differ : (sampleJob [1, 2]).headerAt sampleTurns sampleHeader 1 ≠
      (sampleJob [1, 2]).blockWith sampleTurns sampleHeader 1 := by
    decide +kernel
  exact differ (MinerEnd.checkWork.inj (called.symm.trans (searches.first 1 (by decide) solves first)))

end MinerJob

end BitCrystal
