import BitCrystal.MinWork

namespace BitCrystal

open Data

/-! # The band in which a retarget moves the target -/

/-- What the compact form keeps of a number. -/
def truncated (n : Int) : Int := setCompact (getCompact n)

/-- A chain with consecutive heights down to its root and with targets in the range of the main network. -/
def InRange : List CBlockIndex → Prop
  | [] => True
  | pindex :: ancestors =>
      (pindex.nHeight = ancestors.length ∧ 0 < setCompact pindex.nBits ∧ setCompact pindex.nBits ≤ bnProofOfWorkLimit) ∧
        InRange ancestors

instance decidableInRange : DecidablePred InRange
  | [] => inferInstanceAs (Decidable True)
  | pindex :: ancestors =>
      have := decidableInRange ancestors
      inferInstanceAs (Decidable ((pindex.nHeight = ancestors.length ∧ 0 < setCompact pindex.nBits ∧
        setCompact pindex.nBits ≤ bnProofOfWorkLimit) ∧ InRange ancestors))

/-! ## Truncation -/

section

variable {m n : Nat}

theorem two_pow_lt_bytes (small : n < 2 ^ 256) : n < 256 ^ 200 :=
  small.trans_le (by decide)

theorem le_truncated_iff (small : n < 256 ^ 200) (nBits : UInt32) :
    setCompact nBits ≤ truncated n ↔ setCompact nBits ≤ n := by
  obtain ⟨e, kept, long⟩ := setCompact_getCompact small
  have lower : ((n / 256 ^ e * 256 ^ e : Nat) : Int) ≤ n := Int.ofNat_le.mpr (Nat.div_mul_le_self n _)
  rw [truncated, kept]
  refine ⟨fun below => below.trans lower, fun below => ?_⟩
  obtain ⟨m, j, short, value | value⟩ := setCompact_form nBits
  · rw [value] at below ⊢
    exact Int.ofNat_le.mpr (mantissa_le_floor short (Int.ofNat_le.mp below) long)
  · rw [value]
    omega

theorem truncated_nonneg (small : n < 256 ^ 200) : 0 ≤ truncated n := by
  obtain ⟨e, kept, -⟩ := setCompact_getCompact small
  rw [truncated, kept]
  exact Int.natCast_nonneg _

theorem truncated_le (small : n < 256 ^ 200) : truncated n ≤ n :=
  (le_truncated_iff small (getCompact n)).mp (Int.le_refl _)

theorem truncated_mono (small : n < 256 ^ 200) (below : m ≤ n) : truncated m ≤ truncated n := by
  have less : truncated m ≤ m := truncated_le (below.trans_lt small)
  exact (le_truncated_iff small (getCompact m)).mpr (less.trans (Int.ofNat_le.mpr below))

theorem truncated_truncated (small : n < 256 ^ 200) : truncated (truncated n) = truncated n := by
  obtain ⟨kept, value⟩ := Int.eq_ofNat_of_zero_le (truncated_nonneg small)
  have less : kept ≤ n := Int.ofNat_le.mp (value ▸ truncated_le small)
  have again : truncated kept ≤ kept := truncated_le (less.trans_lt small)
  rw [value]
  refine Int.le_antisymm again ?_
  have exact := (le_truncated_iff (less.trans_lt small) (getCompact n)).mpr
  rw [← truncated, value] at exact
  exact exact (Int.le_refl _)

theorem truncated_loss (small : n < 256 ^ 200) (positive : 0 < n) : (n - truncated n) * 2 ^ 15 < n := by
  obtain ⟨e, kept, rfl | long⟩ := setCompact_getCompact small
  · rw [truncated, kept]
    simp only [Nat.pow_zero, Nat.div_one, Nat.mul_one, Int.sub_self, Int.zero_mul]
    exact Int.ofNat_lt.mpr positive
  · have rest : n % 256 ^ e < 256 ^ e := Nat.mod_lt n (by positivity)
    have whole : n / 256 ^ e * 256 ^ e + n % 256 ^ e = n := Nat.div_add_mod' n (256 ^ e)
    rw [truncated, kept]
    generalize n / 256 ^ e * 256 ^ e = high at whole ⊢
    omega

end

/-! ## The band -/

theorem retarget_eq {nBits : UInt32} (natural : 0 ≤ setCompact nBits) (nActualTimespan : Int) :
    ∃ bnNew, setCompact nBits / 4 ≤ bnNew ∧ bnNew ≤ 4 * setCompact nBits ∧
      retarget nBits nActualTimespan = getCompact (if bnProofOfWorkLimit < bnNew then bnProofOfWorkLimit else bnNew) := by
  have hour : nTargetTimespan = 3600 := rfl
  unfold retarget
  generalize raised : (if nActualTimespan < nTargetTimespan / 4 then nTargetTimespan / 4 else nActualTimespan) = least
  dsimp only
  generalize bounded : (if nTargetTimespan * 4 < least then nTargetTimespan * 4 else least) = timespan
  have range : 900 ≤ timespan ∧ timespan ≤ 14400 := by
    rw [← bounded, ← raised, hour]
    split_ifs <;> omega
  have above : setCompact nBits * timespan ≤ setCompact nBits * 14400 :=
    Int.mul_le_mul_of_nonneg_left range.2 natural
  have below : setCompact nBits * 900 ≤ setCompact nBits * timespan :=
    Int.mul_le_mul_of_nonneg_left range.1 natural
  have nonneg : 0 ≤ setCompact nBits * timespan := Int.mul_nonneg natural (by omega)
  refine ⟨_, ?_, ?_, rfl⟩
  all_goals
    rw [hour, Int.tdiv_eq_ediv_of_nonneg nonneg]
    omega

variable {settings : Settings} {pindexLast : CBlockIndex} {ancestors : List CBlockIndex}

/-- The walk back of a retarget ends at a block: an interval before a height that the interval divides. -/
theorem getNextWorkRequired_ok (main : settings.fTestNet = false)
    (height : pindexLast.nHeight = ancestors.length) (nTime : UInt32) :
    getNextWorkRequired settings (pindexLast :: ancestors) nTime = .ok pindexLast.nBits ∨
      ∃ nActualTimespan, getNextWorkRequired settings (pindexLast :: ancestors) nTime =
        .ok (retarget pindexLast.nBits nActualTimespan) := by
  have interval : nInterval = 60 := rfl
  unfold getNextWorkRequired
  dsimp only
  split
  · exact .inl (by simp only [main, Bool.false_eq_true, if_false])
  · rename_i due
    have enough : (nInterval - 1).toNat < (pindexLast :: ancestors).length := by
      rw [List.length_cons, interval]
      rw [interval, height] at due
      omega
    rw [List.getElem?_eq_getElem enough]
    exact .inr ⟨_, rfl⟩

theorem getNextWorkRequired_band (main : settings.fTestNet = false) (chain : InRange (pindexLast :: ancestors))
    (nTime : UInt32) :
    ∃ nBits, getNextWorkRequired settings (pindexLast :: ancestors) nTime = .ok nBits ∧
      setCompact nBits ≤ bnProofOfWorkLimit ∧ truncated (setCompact pindexLast.nBits / 4) ≤ setCompact nBits ∧
      setCompact nBits ≤ truncated (4 * setCompact pindexLast.nBits) := by
  obtain ⟨⟨height, positive, limited⟩, -⟩ := chain
  obtain ⟨target, value⟩ := Int.eq_ofNat_of_zero_le positive.le
  have limit : bnProofOfWorkLimit = ((2 ^ 236 - 1 : Nat) : Int) := rfl
  have bound : 4 * target < 256 ^ 200 := by
    rw [value, limit] at limited
    omega
  rcases getNextWorkRequired_ok main height nTime with same | ⟨nActualTimespan, moved⟩
  · refine ⟨_, same, limited, ?_, ?_⟩
    · have less : truncated ((target / 4 : Nat) : Int) ≤ ((target / 4 : Nat) : Int) := truncated_le (by omega)
      rw [value]
      exact less.trans (by omega)
    · have kept := (le_truncated_iff bound pindexLast.nBits).mpr (by omega)
      rw [value] at kept ⊢
      exact kept
  · obtain ⟨bnNew, lower, upper, retargeted⟩ := retarget_eq positive.le nActualTimespan
    refine ⟨_, moved, ?_⟩
    rw [retargeted]
    -- the limit is at least the old target, and so in the band itself
    generalize clamped : (if bnProofOfWorkLimit < bnNew then bnProofOfWorkLimit else bnNew) = bnClamped
    have band : setCompact pindexLast.nBits / 4 ≤ bnClamped ∧ bnClamped ≤ 4 * setCompact pindexLast.nBits ∧
        bnClamped ≤ bnProofOfWorkLimit := by
      rw [← clamped]
      split <;> omega
    obtain ⟨next, nextValue⟩ := Int.eq_ofNat_of_zero_le (show 0 ≤ bnClamped by omega)
    rw [value, nextValue] at band
    have small : next < 256 ^ 200 := by omega
    have cut := truncated_le small
    have lowest : target / 4 ≤ next := by omega
    have highest : next ≤ 4 * target := by omega
    rw [nextValue, value]
    exact ⟨cut.trans band.2.2, truncated_mono small lowest, truncated_mono bound highest⟩

/-- A retarget on the main network finds its first block, and moves the target within a factor of four and the
limit; the compact form rounds down, keeps the order and loses little. -/
theorem retargeting_in_band :
    (∀ (settings : Settings) (pindexLast : CBlockIndex) (ancestors : List CBlockIndex) (nTime : UInt32),
      settings.fTestNet = false → InRange (pindexLast :: ancestors) →
        ∃ nBits, getNextWorkRequired settings (pindexLast :: ancestors) nTime = .ok nBits ∧
          setCompact nBits ≤ bnProofOfWorkLimit ∧ truncated (setCompact pindexLast.nBits / 4) ≤ setCompact nBits ∧
          setCompact nBits ≤ truncated (4 * setCompact pindexLast.nBits)) ∧
    ∀ x : Nat, x < 2 ^ 256 →
      0 ≤ truncated x ∧ truncated x ≤ x ∧ (∀ y : Nat, y ≤ x → truncated y ≤ truncated x) ∧
        truncated (truncated x) = truncated x ∧ (0 < x → (x - truncated x) * 2 ^ 15 < x) := by
  refine ⟨fun settings pindexLast ancestors nTime main chain => getNextWorkRequired_band main chain nTime,
    fun x small => ?_⟩
  have bound := two_pow_lt_bytes small
  exact ⟨truncated_nonneg bound, truncated_le bound, fun y below => truncated_mono bound below,
    truncated_truncated bound, truncated_loss bound⟩

open Sample in
theorem retargeting_in_band_slowing :
    (∃ nBits, getNextWorkRequired mainNetwork (slowingBlocks 0 60) 0 = .ok nBits ∧
      setCompact nBits ≤ bnProofOfWorkLimit ∧ truncated (setCompact 0x1e0fffff / 4) ≤ setCompact nBits ∧
      setCompact nBits ≤ truncated (4 * setCompact 0x1e0fffff)) ∧
    truncated (truncated (0x123456789 : Nat)) = truncated (0x123456789 : Nat) := by
  have chain : InRange (slowingBlocks 0 60) := by decide
  exact ⟨retargeting_in_band.1 mainNetwork (slowingBlock 59) (slowingBlocks 0 59) 0 rfl chain,
    (retargeting_in_band.2 0x123456789 (by decide)).2.2.2.1⟩

end BitCrystal
