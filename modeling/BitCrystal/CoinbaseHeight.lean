import BitCrystal.BigNumBytes
import BitCrystal.OrphanBlocks

namespace BitCrystal

open Data

/-! # The height at the start of the coinbase -/

/-! ## The comparison -/

theorem startsWith_append (expect rest : CScript) : startsWith expect (expect ++ rest) = .ok true := by
  induction expect with
  | nil => cases rest <;> rfl
  | cons byte expect ih => rw [List.cons_append, startsWith, if_pos rfl, ih]

theorem startsWith_eq_error_iff (expect script : CScript) :
    startsWith expect script = .error (.undefined "AcceptBlock") ↔ script <+: expect ∧ script ≠ expect := by
  induction expect generalizing script with
  | nil =>
      cases script with
      | nil => simp [startsWith]
      | cons other script => simp [startsWith]
  | cons byte expect ih =>
      cases script with
      | nil => simp [startsWith]
      | cons other script =>
          rw [startsWith, List.cons_prefix_cons]
          by_cases same : byte = other
          · subst same
            rw [if_pos rfl, ih]
            simp
          · have differ : other ≠ byte := fun equal => same equal.symm
            simp [same, differ]

theorem startsWith_eq_ok_true_iff (expect script : CScript) :
    startsWith expect script = .ok true ↔ expect <+: script := by
  constructor
  · intro accepted
    induction expect generalizing script with
    | nil => exact List.nil_prefix
    | cons byte expect ih =>
        cases script with
        | nil => cases accepted
        | cons other script =>
            rw [startsWith] at accepted
            split at accepted
            case isTrue same => exact List.cons_prefix_cons.mpr ⟨same, ih script accepted⟩
            case isFalse => cases accepted
  · intro starts
    obtain ⟨rest, rfl⟩ := starts
    exact startsWith_append expect rest

theorem startsWith_cases (expect script : CScript) :
    (∃ answer, startsWith expect script = .ok answer) ∨
      startsWith expect script = .error (.undefined "AcceptBlock") := by
  induction expect generalizing script with
  | nil => exact .inl ⟨true, by cases script <;> rfl⟩
  | cons byte expect ih =>
      cases script with
      | nil => exact .inr rfl
      | cons other script =>
          rw [startsWith]
          split
          · exact ih script
          · exact .inl ⟨false, rfl⟩

/-- Nothing is read beyond a script that is as long as the height. -/
theorem startsWith_within {expect script : CScript} (long : expect.length ≤ script.length) :
    ¬ (script <+: expect ∧ script ≠ expect) := by
  intro ⟨starts, differ⟩
  exact differ (starts.eq_of_length_le long)

/-! ## The length of the height -/

theorem CScript.pushData_length_le_two_iff (data : Bytes) : (pushData data).length ≤ 2 ↔ data.length ≤ 1 := by
  unfold pushData
  split
  · rw [List.length_cons, Nat.succ_le_succ_iff]
  · rename_i large
    have long : 76 ≤ data.length := Nat.not_lt.mp large
    split
    · simp only [List.length_cons]
      omega
    · split <;> simp only [List.length_cons, List.length_append] <;> omega

/-- CheckTransaction asks for two bytes, and that is the length of the heights below 128. -/
theorem CScript.ofInt_length_le_two_iff (n : Int) : (ofInt n).length ≤ 2 ↔ n.natAbs < 128 := by
  unfold ofInt
  split
  case isTrue small =>
    have bound : n.natAbs < 128 := by omega
    simp [bound]
  case isFalse =>
    rw [pushData_length_le_two_iff]
    simpa using CBigNum.getvch_length_le_iff n 0

/-- For every other height there are scripts that CheckTransaction admits and that end too early. -/
theorem CScript.exists_short (n : Int) (large : 128 ≤ n.natAbs) :
    ∃ script : CScript, 2 ≤ script.length ∧ script.length ≤ 100 ∧ script <+: ofInt n ∧ script ≠ ofInt n := by
  have long : 2 < (ofInt n).length := by
    by_contra short
    exact absurd ((ofInt_length_le_two_iff n).mp (Nat.not_lt.mp short)) (Nat.not_lt.mpr large)
  have length : ((ofInt n).take 2).length = 2 := by
    rw [List.length_take]
    omega
  refine ⟨(ofInt n).take 2, length.ge, by omega, List.take_prefix 2 _, ?_⟩
  intro whole
  rw [whole] at length
  omega

/-! ## The rule of AcceptBlock -/

/-- `vtx[0].vin[0].scriptSig` -/
def CBlock.coinBaseScript (block : CBlock) : Option CScript :=
  (block.vtx.head?.bind fun tx => tx.vin.head?).map CTxIn.scriptSig

def Upgraded (settings : Settings) (chain : List CBlockIndex) : Prop :=
  if settings.fTestNet then isSuperMajority 2 chain 51 100 = true else isSuperMajority 2 chain 750 1000 = true

theorem ChainState.heightInCoinBase_eq {settings : Settings} {chain : List CBlockIndex} {block : CBlock} {script : CScript}
    (version : 2 ≤ block.nVersion) (upgraded : Upgraded settings chain) (found : block.coinBaseScript = some script)
    (nHeight : Int) :
    heightInCoinBase settings chain block nHeight = (do
      let starts ← startsWith (.ofInt nHeight) script
      require starts (.dos 100 "AcceptBlock() : block height mismatch in coinbase")) := by
  obtain ⟨txin, place, rfl⟩ := Option.map_eq_some_iff.mp found
  have rule : 2 ≤ block.nVersion ∧ (if settings.fTestNet then isSuperMajority 2 chain 51 100
      else isSuperMajority 2 chain 750 1000) = true := by
    refine ⟨version, ?_⟩
    unfold Upgraded at upgraded
    split at upgraded <;> simp_all
  rw [heightInCoinBase, if_pos rule, place]
  rfl

section

variable [Hashing]

theorem CBlock.coinBaseScript_of_checkBlock {settings : Settings} {block : CBlock} {fCheckPOW fCheckMerkleRoot : Bool}
    {done : Unit} (passes : block.checkBlock settings fCheckPOW fCheckMerkleRoot = .ok done) :
    ∃ script, block.coinBaseScript = some script ∧ 2 ≤ script.length ∧ script.length ≤ 100 := by
  simp only [checkBlock, bind_eq_ok, require_eq_ok, exists_const] at passes
  obtain ⟨_, _, _, first, _, _, transactions, _⟩ := passes
  unfold coinBaseScript
  cases listed : block.vtx with
  | nil => simp [hasCoinBaseFirst, listed] at first
  | cons coinbase rest =>
      have isCoinBase : coinbase.isCoinBase = true := by simpa [hasCoinBaseFirst, listed] using first
      rw [listed, List.forM_cons, bind_eq_ok] at transactions
      obtain ⟨_, passed, _⟩ := transactions
      simp only [CTransaction.checkTransaction, isCoinBase, if_true, bind_eq_ok, require_eq_ok, exists_const] at passed
      obtain ⟨inputs, _, _, _, _, _, short, long⟩ := passed
      unfold CTransaction.coinBaseScriptSize at short long
      cases vin : coinbase.vin with
      | nil => exact absurd vin inputs
      | cons txin more =>
          rw [vin] at short long
          exact ⟨txin.scriptSig, by simp [vin], short, long⟩

namespace ChainState

variable {settings : Settings} {chain : List CBlockIndex} {block : CBlock} {nHeight : Int} {done : Unit}

/-- The comparison with the height stays inside the scriptSig and decides whether the
scriptSig starts with the height, unless the scriptSig ends before the two differ. -/
theorem heightInCoinBase_within_iff (passes : block.checkBlock settings true true = .ok done)
    (version : 2 ≤ block.nVersion) (upgraded : Upgraded settings chain) :
    ∃ script, block.coinBaseScript = some script ∧
      ((heightInCoinBase settings chain block nHeight ≠ .error (.undefined "AcceptBlock") ∧
          (heightInCoinBase settings chain block nHeight = .ok () ↔ CScript.ofInt nHeight <+: script)) ↔
        ¬ (script <+: CScript.ofInt nHeight ∧ script ≠ CScript.ofInt nHeight)) := by
  obtain ⟨script, found, _⟩ := CBlock.coinBaseScript_of_checkBlock passes
  refine ⟨script, found, ?_⟩
  rw [heightInCoinBase_eq version upgraded found, ← startsWith_eq_error_iff, ← startsWith_eq_ok_true_iff]
  cases compared : startsWith (.ofInt nHeight) script with
  | error failure =>
      rcases startsWith_cases (.ofInt nHeight) script with ⟨answer, decided⟩ | outside
      · rw [compared] at decided
        cases decided
      · rw [compared] at outside
        cases outside
        simp [bind, Except.bind]
  | ok starts => cases starts <;> simp [bind, Except.bind, require]

/-- Two bytes are enough for the heights below 128, so nothing can go wrong with them. -/
theorem heightInCoinBase_within_of_small (passes : block.checkBlock settings true true = .ok done)
    (version : 2 ≤ block.nVersion) (upgraded : Upgraded settings chain) (small : nHeight.natAbs < 128) :
    heightInCoinBase settings chain block nHeight ≠ .error (.undefined "AcceptBlock") := by
  obtain ⟨script, found, long, _⟩ := CBlock.coinBaseScript_of_checkBlock passes
  have short := (CScript.ofInt_length_le_two_iff nHeight).mpr small
  rw [heightInCoinBase_eq version upgraded found]
  rcases startsWith_cases (.ofInt nHeight) script with ⟨answer, decided⟩ | outside
  · rw [decided]
    cases answer <;> simp [bind, Except.bind, require]
  · exact absurd ((startsWith_eq_error_iff _ _).mp outside) (startsWith_within (short.trans long))

/-- A block that AcceptBlock lets through starts with its height, once the rule is in force. -/
theorem coinBaseScript_of_acceptBlockChecks {s : ChainState} {pindexPrev : CBlockIndex}
    (passes : block.checkBlock settings true true = .ok done) (version : 2 ≤ block.nVersion)
    (known : s.mapBlockIndex block.hashPrevBlock = some pindexPrev) (other : block.getHash ≠ hashGenesisBlock)
    (upgraded : Upgraded settings
      (s.mapBlockIndex.ancestry (heightRoom s.mapBlockIndex block.hashPrevBlock) (some block.hashPrevBlock)))
    (accepted : s.acceptBlockChecks settings block = .ok nHeight) :
    nHeight = pindexPrev.nHeight + 1 ∧ ∃ script, block.coinBaseScript = some script ∧ CScript.ofInt nHeight <+: script := by
  obtain ⟨script, found, _⟩ := CBlock.coinBaseScript_of_checkBlock passes
  simp only [acceptBlockChecks, bind_eq_ok, require_eq_ok, expect_eq_ok, exists_const, if_neg other] at accepted
  obtain ⟨_, pindex, entry, _, _, _, _, height, last⟩ := accepted
  obtain rfl : pindexPrev = pindex := Option.some.inj (known.symm.trans entry)
  obtain rfl : pindexPrev.nHeight + 1 = nHeight := Except.ok.inj last
  rw [heightInCoinBase_eq version upgraded found, bind_eq_ok] at height
  obtain ⟨starts, compared, matched⟩ := height
  obtain rfl : starts = true := by simpa using matched
  exact ⟨rfl, script, found, (startsWith_eq_ok_true_iff _ _).mp compared⟩

end ChainState

end

namespace Sample

def coinbaseOf (script : CScript) : CTransaction :=
  ⟨1, [⟨COutPoint.null, script, 0xffffffff⟩], [⟨500000, [0x51]⟩], 0, []⟩

/-- A block of version 2. -/
def upgradedBlock (script : CScript) : CBlock :=
  let block : CBlock := ⟨⟨2, 0, 0, 1400000000, 0x1e0fffff, 6⟩, [coinbaseOf script]⟩
  { block with hashMerkleRoot := block.buildMerkleTree }

def upgradedChain : List CBlockIndex := List.replicate 100 { index 5 with nVersion := 2 }

theorem upgraded_upgradedChain : Upgraded settings upgradedChain := by
  rw [Upgraded, if_pos (show settings.fTestNet = true from rfl)]
  simp [isSuperMajority, upgradedChain]

theorem upgradedBlock_checked : (upgradedBlock [0x02, 0x80, 0x00]).checkBlock settings true true = .ok () := by
  decide +kernel

end Sample

open Sample ChainState

theorem heightInCoinBase_within_iff_sample : ∃ script, (upgradedBlock [0x02, 0x80, 0x00]).coinBaseScript = some script ∧
    ((heightInCoinBase settings upgradedChain (upgradedBlock [0x02, 0x80, 0x00]) 128 ≠ .error (.undefined "AcceptBlock") ∧
        (heightInCoinBase settings upgradedChain (upgradedBlock [0x02, 0x80, 0x00]) 128 = .ok () ↔
          CScript.ofInt 128 <+: script)) ↔
      ¬ (script <+: CScript.ofInt 128 ∧ script ≠ CScript.ofInt 128)) :=
  heightInCoinBase_within_iff upgradedBlock_checked (by decide) upgraded_upgradedChain

/-- A block that passes CheckBlock although its coinbase ends after two of the three bytes of
the height. -/
theorem heightInCoinBase_outside :
    (upgradedBlock [0x02, 0x80]).checkBlock settings true true = .ok () ∧ 2 ≤ (upgradedBlock [0x02, 0x80]).nVersion ∧
      Upgraded settings upgradedChain ∧
      heightInCoinBase settings upgradedChain (upgradedBlock [0x02, 0x80]) 128 = .error (.undefined "AcceptBlock") := by
  have found : (upgradedBlock [0x02, 0x80]).coinBaseScript = some [0x02, 0x80] := rfl
  refine ⟨by decide +kernel, by decide, upgraded_upgradedChain, ?_⟩
  rw [heightInCoinBase_eq (by decide) upgraded_upgradedChain found,
    (startsWith_eq_error_iff (.ofInt 128) [0x02, 0x80]).mpr (by decide +kernel)]
  rfl

end BitCrystal
