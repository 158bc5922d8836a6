import BitCrystal.Block
import Mathlib.Tactic.Ring
import Mathlib.Tactic.Linarith

namespace BitCrystal

/-! # Targets in compact form

A compact number has a mantissa of 23 bits and a number of bytes, so a target
loses its low bytes there. -/

/-- BN_num_bytes. -/
def numBytes (n : Nat) : Nat :=
  if n = 0 then 0 else n.log2 / 8 + 1

/-- CBigNum::GetCompact. -/
def getCompact (n : Int) : UInt32 :=
  let nSize := numBytes n.natAbs
  let nCompact := if nSize ≤ 3 then n.natAbs <<< (8 * (3 - nSize)) else n.natAbs >>> (8 * (nSize - 3))
  -- where the bit of the sign is already set, the mantissa is divided by 256
  let carried := nCompact &&& 0x00800000 ≠ 0
  let nWord := if carried then nCompact >>> 8 else nCompact
  let nSize := if carried then nSize + 1 else nSize
  UInt32.ofNat (nWord ||| nSize <<< 24 ||| if n < 0 then 0x00800000 else 0)

/-! ## Words and bytes -/

theorem numBytes_bounds {n : Nat} (positive : n ≠ 0) : 256 ^ (numBytes n - 1) ≤ n ∧ n < 256 ^ numBytes n := by
  have low : 2 ^ n.log2 ≤ n := Nat.log2_self_le positive
  have high : n < 2 ^ (n.log2 + 1) := Nat.lt_log2_self
  have base (k : Nat) : 256 ^ k = 2 ^ (8 * k) := by rw [Nat.pow_mul]
  rw [numBytes, if_neg positive, base, base]
  constructor
  · exact Nat.le_trans (Nat.pow_le_pow_right (by omega) (by omega)) low
  · exact Nat.lt_of_lt_of_le high (Nat.pow_le_pow_right (by omega) (by omega))

theorem and_sign_bit (n : Nat) : n &&& 0x00800000 ≠ 0 ↔ n / 2 ^ 23 % 2 = 1 := by
  have bit : n.testBit 23 = true ↔ n / 2 ^ 23 % 2 = 1 := by
    rw [Nat.testBit_eq_decide_div_mod_eq, decide_eq_true_iff]
  rw [show (0x00800000 : Nat) = 2 ^ 23 from rfl, ← bit]
  constructor
  · intro set
    obtain ⟨i, found⟩ := Nat.exists_testBit_of_ne_zero set
    rw [Nat.testBit_and, Bool.and_eq_true, Nat.testBit_two_pow, decide_eq_true_iff] at found
    rw [found.2]
    exact found.1
  · intro set clear
    have both : (n &&& 2 ^ 23).testBit 23 = true := by
      rw [Nat.testBit_and, set, Nat.testBit_two_pow_self, Bool.true_and]
    rw [clear, Nat.zero_testBit] at both
    contradiction

theorem setCompact_parts {nWord nSize : Nat} (word : nWord < 2 ^ 23) (size : nSize < 256) :
    setCompact (UInt32.ofNat (nWord ||| nSize <<< 24 ||| 0)) =
      if nSize ≤ 3 then ((nWord / 256 ^ (3 - nSize) : Nat) : Int) else ((nWord * 256 ^ (nSize - 3) : Nat) : Int) := by
  have whole : nWord ||| nSize <<< 24 = nSize * 2 ^ 24 + nWord := by
    rw [Nat.or_comm, ← Nat.shiftLeft_add_eq_or_of_lt (by omega), Nat.shiftLeft_eq]
  have value : (UInt32.ofNat (nWord ||| nSize <<< 24 ||| 0)).toNat = nSize * 2 ^ 24 + nWord := by
    rw [Nat.or_zero, whole, UInt32.toNat_ofNat_of_lt']
    rw [UInt32.size]
    omega
  have top : (nSize * 2 ^ 24 + nWord) >>> 24 = nSize := by
    rw [Nat.shiftRight_eq_div_pow]
    omega
  have rest : (nSize * 2 ^ 24 + nWord) &&& 0x007fffff = nWord := by
    have mask := Nat.and_two_pow_sub_one_eq_mod (nSize * 2 ^ 24 + nWord) 23
    rw [show (0x007fffff : Nat) = 2 ^ 23 - 1 from rfl, mask]
    omega
  have unsigned : ¬ (nSize * 2 ^ 24 + nWord) &&& 0x00800000 ≠ 0 := by
    rw [and_sign_bit]
    omega
  have base (k : Nat) : 256 ^ k = 2 ^ (8 * k) := by rw [Nat.pow_mul]
  unfold setCompact
  rw [value]
  simp only [top, rest, if_neg unsigned]
  split
  · rw [Nat.shiftRight_eq_div_pow, base]
  · rw [Nat.shiftLeft_eq, base]

/-! ## Rounding down -/

theorem setCompact_getCompact_eq {n word nSize : Nat} (small : numBytes n < 255)
    (bytes : word = if numBytes n ≤ 3 then n <<< (8 * (3 - numBytes n)) else n >>> (8 * (numBytes n - 3)))
    (fits : word < 2 ^ 24) (carried : nSize = if word < 2 ^ 23 then numBytes n else numBytes n + 1)
    {nWord : Nat} (mantissa : nWord = if word < 2 ^ 23 then word else word / 256) :
    setCompact (getCompact n) =
      if nSize ≤ 3 then ((nWord / 256 ^ (3 - nSize) : Nat) : Int) else ((nWord * 256 ^ (nSize - 3) : Nat) : Int) := by
  have unsigned : ¬ (n : Int) < 0 := by omega
  have natural : (n : Int).natAbs = n := rfl
  have sign : word &&& 0x00800000 ≠ 0 ↔ ¬ word < 2 ^ 23 := by
    rw [and_sign_bit]
    omega
  have packed : getCompact n = UInt32.ofNat (nWord ||| nSize <<< 24 ||| 0) := by
    unfold getCompact
    simp only [natural, if_neg unsigned]
    rw [← bytes]
    simp only [sign, ite_not]
    rw [mantissa, carried, show word >>> 8 = word / 256 from Nat.shiftRight_eq_div_pow word 8]
  rw [packed]
  exact setCompact_parts (by rw [mantissa]; split <;> omega) (by rw [carried]; split <;> omega)

/-- The compact form of a number keeps the number without its low bytes, and not
less than fifteen bits of it where bytes are lost. -/
theorem setCompact_getCompact {n : Nat} (small : n < 256 ^ 200) :
    ∃ e, setCompact (getCompact n) = ((n / 256 ^ e * 256 ^ e : Nat) : Int) ∧ (e = 0 ∨ 2 ^ 15 * 256 ^ e ≤ n) := by
  by_cases zero : n = 0
  · subst zero
    exact ⟨0, rfl, Or.inl rfl⟩
  obtain ⟨low, high⟩ := numBytes_bounds zero
  have bytes : numBytes n ≤ 200 := by
    by_contra many
    have larger : 256 ^ 200 ≤ 256 ^ (numBytes n - 1) := Nat.pow_le_pow_right (by omega) (by omega)
    omega
  by_cases short : numBytes n ≤ 3
  · have word : n <<< (8 * (3 - numBytes n)) = n * 256 ^ (3 - numBytes n) := by
      rw [Nat.shiftLeft_eq, Nat.pow_mul]
    have whole : 256 ^ numBytes n * 256 ^ (3 - numBytes n) = 2 ^ 24 := by
      rw [← Nat.pow_add, Nat.add_sub_cancel' short]
      rfl
    have fits : n * 256 ^ (3 - numBytes n) < 2 ^ 24 := by
      rw [← whole]
      exact Nat.mul_lt_mul_of_pos_right high (by positivity)
    rw [setCompact_getCompact_eq (by omega) (by rw [if_pos short, word]) fits rfl rfl]
    by_cases plain : n * 256 ^ (3 - numBytes n) < 2 ^ 23
    · refine ⟨0, ?_, Or.inl rfl⟩
      rw [if_pos plain, if_pos short, if_pos plain, Nat.mul_div_cancel _ (by positivity)]
      simp
    · rw [if_neg plain, if_neg plain]
      by_cases three : numBytes n = 3
      · rw [three] at plain ⊢
        exact ⟨1, by simp, Or.inr (by omega)⟩
      · refine ⟨0, ?_, Or.inl rfl⟩
        have next : 3 - numBytes n = (3 - (numBytes n + 1)) + 1 := by omega
        rw [if_pos (by omega), next, Nat.pow_succ, ← Nat.mul_assoc, Nat.mul_div_cancel _ (by omega),
          Nat.mul_div_cancel _ (by positivity)]
        simp
  · have word : n >>> (8 * (numBytes n - 3)) = n / 256 ^ (numBytes n - 3) := by
      rw [Nat.shiftRight_eq_div_pow, Nat.pow_mul]
    have fits : n / 256 ^ (numBytes n - 3) < 2 ^ 24 := by
      rw [Nat.div_lt_iff_lt_mul (by positivity)]
      calc n < 256 ^ numBytes n := high
        _ = 256 ^ 3 * 256 ^ (numBytes n - 3) := by rw [← Nat.pow_add, Nat.add_sub_cancel' (by omega)]
    rw [setCompact_getCompact_eq (by omega) (by rw [if_neg short, word]) fits rfl rfl]
    by_cases plain : n / 256 ^ (numBytes n - 3) < 2 ^ 23
    · refine ⟨numBytes n - 3, by rw [if_pos plain, if_neg short, if_pos plain], Or.inr ?_⟩
      calc 2 ^ 15 * 256 ^ (numBytes n - 3) ≤ 256 ^ 2 * 256 ^ (numBytes n - 3) := Nat.mul_le_mul_right _ (by decide)
        _ = 256 ^ (numBytes n - 1) := by rw [← Nat.pow_add]; congr 1; omega
        _ ≤ n := low
    · refine ⟨numBytes n + 1 - 3, ?_, Or.inr ?_⟩
      · have next : numBytes n + 1 - 3 = numBytes n - 3 + 1 := by omega
        rw [if_neg plain, if_neg (by omega), if_neg plain, Nat.div_div_eq_div_mul, next, Nat.pow_succ]
      · have next : numBytes n + 1 - 3 = numBytes n - 3 + 1 := by omega
        have long : 2 ^ 23 * 256 ^ (numBytes n - 3) ≤ n :=
          (Nat.le_div_iff_mul_le (by positivity)).mp (Nat.le_of_not_lt plain)
        rw [next, Nat.pow_succ]
        omega

theorem mantissa_le_floor {m j e n : Nat} (short : m < 2 ^ 23) (below : m * 256 ^ j ≤ n)
    (kept : e = 0 ∨ 2 ^ 15 * 256 ^ e ≤ n) : m * 256 ^ j ≤ n / 256 ^ e * 256 ^ e := by
  rcases Nat.lt_or_ge j e with fewer | more
  · have large : 2 ^ 15 * 256 ^ e ≤ n := kept.resolve_left (by omega)
    have top : 2 ^ 15 ≤ n / 256 ^ e := (Nat.le_div_iff_mul_le (by positivity)).mpr large
    calc m * 256 ^ j ≤ 2 ^ 23 * 256 ^ (e - 1) :=
          Nat.mul_le_mul (by omega) (Nat.pow_le_pow_right (by omega) (by omega))
      _ = 2 ^ 15 * (256 ^ (e - 1) * 256) := by ring
      _ = 2 ^ 15 * 256 ^ e := by rw [← Nat.pow_succ, Nat.succ_eq_add_one, Nat.sub_add_cancel (by omega)]
      _ ≤ n / 256 ^ e * 256 ^ e := Nat.mul_le_mul_right _ top
  · have split : m * 256 ^ j = m * 256 ^ (j - e) * 256 ^ e := by
      rw [Nat.mul_assoc, ← Nat.pow_add, Nat.sub_add_cancel more]
    rw [split] at below ⊢
    exact Nat.mul_le_mul_right _ ((Nat.le_div_iff_mul_le (by positivity)).mpr below)

theorem setCompact_form (nCompact : UInt32) :
    ∃ m j : Nat, m < 2 ^ 23 ∧
      (setCompact nCompact = ((m * 256 ^ j : Nat) : Int) ∨ setCompact nCompact = -((m * 256 ^ j : Nat) : Int)) := by
  have word : nCompact.toNat &&& 0x007fffff < 2 ^ 23 := by
    have mask := Nat.and_two_pow_sub_one_eq_mod nCompact.toNat 23
    rw [show (0x007fffff : Nat) = 2 ^ 23 - 1 from rfl, mask]
    omega
  have magnitude : ∃ m j : Nat, m < 2 ^ 23 ∧
      (if nCompact.toNat >>> 24 ≤ 3 then (nCompact.toNat &&& 0x007fffff) >>> (8 * (3 - nCompact.toNat >>> 24))
        else (nCompact.toNat &&& 0x007fffff) <<< (8 * (nCompact.toNat >>> 24 - 3))) = m * 256 ^ j := by
    split
    · refine ⟨_, 0, Nat.lt_of_le_of_lt ?_ word, (Nat.mul_one _).symm⟩
      rw [Nat.shiftRight_eq_div_pow]
      exact Nat.div_le_self _ _
    · exact ⟨_, nCompact.toNat >>> 24 - 3, word, by rw [Nat.shiftLeft_eq, Nat.pow_mul]⟩
  obtain ⟨m, j, short, value⟩ := magnitude
  refine ⟨m, j, short, ?_⟩
  unfold setCompact
  simp only [value]
  split
  · exact Or.inr rfl
  · exact Or.inl rfl

theorem setCompact_getCompact_bounds {n : Int} (natural : 0 ≤ n) (small : n ≤ bnProofOfWorkLimit) :
    0 ≤ setCompact (getCompact n) ∧ setCompact (getCompact n) ≤ n := by
  lift n to Nat using natural
  have bound : n < 256 ^ 200 := by
    have limit : (n : Int) ≤ 2 ^ 236 - 1 := small
    omega
  obtain ⟨e, kept, _⟩ := setCompact_getCompact bound
  rw [kept]
  exact ⟨Int.natCast_nonneg _, Int.ofNat_le.mpr (Nat.div_mul_le_self n _)⟩

/-- A target in compact form is at or below a number exactly when it is so after the
number has lost its low bytes. -/
theorem setCompact_le_getCompact_iff {nBits : UInt32} {n : Int} (natural : 0 ≤ n) (small : n ≤ bnProofOfWorkLimit) :
    setCompact nBits ≤ setCompact (getCompact n) ↔ setCompact nBits ≤ n := by
  obtain ⟨nonneg, lower⟩ := setCompact_getCompact_bounds natural small
  refine ⟨fun below => Int.le_trans below lower, fun below => ?_⟩
  obtain ⟨m, j, short, value | value⟩ := setCompact_form nBits
  · lift n to Nat using natural
    have bound : n < 256 ^ 200 := by
      have limit : (n : Int) ≤ 2 ^ 236 - 1 := small
      omega
    obtain ⟨e, kept, long⟩ := setCompact_getCompact bound
    rw [value] at below ⊢
    rw [kept]
    exact Int.ofNat_le.mpr (mantissa_le_floor short (Int.ofNat_le.mp below) long)
  · have negative : setCompact nBits ≤ 0 := by
      rw [value]
      omega
    exact Int.le_trans negative nonneg

end BitCrystal
