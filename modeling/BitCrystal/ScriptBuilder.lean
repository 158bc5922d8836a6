import BitCrystal.BigNumBytes
import BitCrystal.Data.Decoding
import BitCrystal.Interpreter
import BitCrystal.Tokens

namespace BitCrystal

open Data

/-! # Appending to a script -/

namespace CBigNum

/-- BN_mpi2bn without the size before the bytes: highest byte first, with the sign in the highest bit. `setvch`
hands its bytes over in reverse. -/
def mpi2bn (pch : Bytes) : Int := setvch pch.reverse

/-- The loop of setint64 and setuint64 over the bytes of a number, with the turns that are left. -/
def mpiLoop (fNegative : Bool) : Nat → Bool → UInt64 → Bytes
  | 0, _, _ => []
  | turns + 1, fLeadingZeroes, n =>
      let c := (n >>> 56).toUInt8
      let n := n <<< 8
      if fLeadingZeroes then
        if c = 0 then mpiLoop fNegative turns true n
        else if c &&& 0x80 ≠ 0 then (if fNegative then 0x80 else 0) :: c :: mpiLoop fNegative turns false n
        else (if fNegative then c ||| 0x80 else c) :: mpiLoop fNegative turns false n
      else c :: mpiLoop fNegative turns false n

def setint64 (sn : Int64) : Int :=
  if sn < 0 then mpi2bn (mpiLoop true 8 true ((-(sn + 1)).toUInt64 + 1))
  else mpi2bn (mpiLoop false 8 true sn.toUInt64)

def setuint64 (n : UInt64) : Int := mpi2bn (mpiLoop false 8 true n)

end CBigNum

namespace CScript

def pushInt64 (n : Int64) : CScript :=
  if n.toInt = -1 ∨ (1 ≤ n.toInt ∧ n.toInt ≤ 16) then [UInt8.ofNat (n.toInt + (OP_1.toNat - 1 : Int)).toNat]
  else pushData (CBigNum.getvch (CBigNum.setint64 n))

def pushUInt64 (n : UInt64) : CScript :=
  if 1 ≤ n.toNat ∧ n.toNat ≤ 16 then [UInt8.ofNat (n.toNat + (OP_1.toNat - 1))]
  else pushData (CBigNum.getvch (CBigNum.setuint64 n))

/-- The arguments of `operator<<`: an opcode, a byte vector, or an integer of a signed or an unsigned type. -/
inductive Item where
  | operation (opcode : UInt8)
  | data (vch : Bytes)
  | signed (n : Int64)
  | unsigned (n : UInt64)
deriving DecidableEq

def Item.bytes : Item → CScript
  | .operation opcode => [opcode]
  | .data vch => pushData vch
  | .signed n => pushInt64 n
  | .unsigned n => pushUInt64 n

/-- `CScript() << item << ...` -/
def build (items : List Item) : CScript :=
  items.foldl (fun script item => script ++ item.bytes) []

/-- An opcode that is not the opcode of a push with data, and data whose size fits an `unsigned int`. -/
def Item.Appendable : Item → Prop
  | .operation opcode => opcode = OP_0 ∨ OP_PUSHDATA4 < opcode
  | .data vch => vch.length < 2 ^ 32
  | .signed _ => True
  | .unsigned _ => True

/-- EvalScript pushes bytes that stand for the number, and CastToBigNum gives it back where four bytes hold it. -/
def PushesNumber (n : Int) (token : Token) : Prop :=
  ∃ vch, (∀ [ScriptDigests] (verifier : Verifier) (state : ScriptState), state.fExec →
      state.execute verifier token.opcode token.operand = pure { state with stack := vch :: state.stack }) ∧
    CBigNum.setvch vch = n ∧ castToBigNum vch = if n.natAbs < 2 ^ 31 then .ok n else .error bigNumError

/-- What GetOp is to read for an item. -/
def Item.ReadAs : Item → Token → Prop
  | .operation opcode, token => token.opcode = opcode ∧ token.operand = []
  | .data vch, token => token.opcode ≤ OP_PUSHDATA4 ∧ token.operand = vch
  | .signed n, token => PushesNumber n.toInt token
  | .unsigned n, token => PushesNumber n.toNat token

end CScript

/-! ## From 64-bit integers to big numbers -/

theorem littleEndian_succ (width value : Nat) :
    littleEndian (width + 1) value = littleEndian width value ++ [UInt8.ofNat (value / 256 ^ width)] := by
  induction width generalizing value with
  | zero => simp [littleEndian]
  | succ width ih =>
      have quotient : value / 256 / 256 ^ width = value / 256 ^ (width + 1) := by
        rw [Nat.div_div_eq_div_mul, Nat.pow_succ, Nat.mul_comm]
      rw [littleEndian, ih, quotient, littleEndian, List.cons_append]

namespace CBigNum

theorem highest_byte {t m : Nat} (turn : t ≤ 7) (bound : m < 256 ^ (t + 1)) :
    (UInt64.ofNat (m * 256 ^ (8 - (t + 1))) >>> 56).toUInt8 = UInt8.ofNat (m / 256 ^ t) ∧
      UInt64.ofNat (m * 256 ^ (8 - (t + 1))) <<< 8 = UInt64.ofNat (m % 256 ^ t * 256 ^ (8 - t)) := by
  have width : 256 ^ (8 - (t + 1)) * 256 ^ t = 256 ^ 7 := by
    rw [← Nat.pow_add]
    congr 1
    omega
  have whole : 256 ^ (8 - t) * 256 ^ t = 256 ^ 8 := by
    rw [← Nat.pow_add, Nat.sub_add_cancel (by omega)]
  have grow : 256 ^ (8 - t) = 256 ^ (8 - (t + 1)) * 256 := by
    rw [← Nat.pow_succ]
    congr 1
    omega
  have fits : m * 256 ^ (8 - (t + 1)) < 2 ^ 64 := by
    calc m * 256 ^ (8 - (t + 1)) < 256 ^ (t + 1) * 256 ^ (8 - (t + 1)) :=
          Nat.mul_lt_mul_of_pos_right bound (Nat.pow_pos (by decide))
      _ = 2 ^ 64 := by rw [← Nat.pow_add, Nat.add_sub_cancel' (by omega)]; rfl
  have value : (UInt64.ofNat (m * 256 ^ (8 - (t + 1)))).toNat = m * 256 ^ (8 - (t + 1)) := by
    rw [UInt64.toNat_ofNat', Nat.mod_eq_of_lt fits]
  constructor
  · apply UInt8.toNat_inj.mp
    rw [UInt64.toNat_toUInt8, UInt64.toNat_shiftRight, value, UInt8.toNat_ofNat']
    show (m * 256 ^ (8 - (t + 1))) >>> 56 % 256 = m / 256 ^ t % 256
    rw [Nat.shiftRight_eq_div_pow, show (2 : Nat) ^ 56 = 256 ^ 7 from rfl, ← width,
      Nat.mul_comm m, Nat.mul_div_mul_left _ _ (Nat.pow_pos (by decide))]
  · apply UInt64.toNat_inj.mp
    rw [UInt64.toNat_shiftLeft, value, UInt64.toNat_ofNat']
    show (m * 256 ^ (8 - (t + 1))) <<< 8 % 2 ^ 64 = m % 256 ^ t * 256 ^ (8 - t) % 2 ^ 64
    rw [Nat.shiftLeft_eq, Nat.mul_assoc, show (2 : Nat) ^ 8 = 256 from rfl, ← grow,
      show (2 : Nat) ^ 64 = 256 ^ 8 from rfl, ← whole, Nat.mul_comm m, Nat.mul_comm (m % 256 ^ t),
      Nat.mul_mod_mul_left, Nat.mul_mod_mul_left, Nat.mod_mod]

theorem mpiLoop_rest (fNegative : Bool) {k m : Nat} (turns : k ≤ 8) (bound : m < 256 ^ k) :
    mpiLoop fNegative k false (UInt64.ofNat (m * 256 ^ (8 - k))) = (littleEndian k m).reverse := by
  induction k generalizing m with
  | zero => rfl
  | succ t ih =>
      obtain ⟨byte, next⟩ := highest_byte (Nat.le_of_succ_le_succ turns) bound
      have rest := ih (m := m % 256 ^ t) (by omega) (Nat.mod_lt m (Nat.pow_pos (by decide)))
      rw [mpiLoop, byte, next]
      simp only [Bool.false_eq_true, if_false]
      rw [rest, littleEndian_mod, littleEndian_succ, List.reverse_append, List.reverse_singleton,
        List.singleton_append]

theorem mpiLoop_eq (fNegative : Bool) {k m : Nat} (turns : k ≤ 8) (bound : m < 256 ^ k) :
    mpiLoop fNegative k true (UInt64.ofNat (m * 256 ^ (8 - k))) =
      (getvch (if fNegative then -(m : Int) else m)).reverse := by
  induction k generalizing m with
  | zero =>
      have zero : m = 0 := by simpa using bound
      subst zero
      cases fNegative <;> rfl
  | succ t ih =>
      obtain ⟨byte, next⟩ := highest_byte (Nat.le_of_succ_le_succ turns) bound
      rw [mpiLoop, byte, next]
      simp only [if_true]
      have quotient : m / 256 ^ t < 256 := by
        rw [Nat.div_lt_iff_lt_mul (Nat.pow_pos (by decide)), ← Nat.pow_succ']
        exact bound
      have value : (UInt8.ofNat (m / 256 ^ t)).toNat = m / 256 ^ t := by
        rw [UInt8.toNat_ofNat', Nat.mod_eq_of_lt quotient]
      by_cases zero : UInt8.ofNat (m / 256 ^ t) = 0
      · have small : m / 256 ^ t = 0 := by
          rw [← value, zero]
          rfl
        have less : m < 256 ^ t := (Nat.div_eq_zero_iff_lt (Nat.pow_pos (by decide))).mp small
        rw [if_pos zero, Nat.mod_eq_of_lt less, ih (by omega) less]
      · have rest := mpiLoop_rest fNegative (m := m % 256 ^ t) (by omega : t ≤ 8)
          (Nat.mod_lt m (Nat.pow_pos (by decide)))
        rw [if_neg zero, rest, littleEndian_mod]
        have split : m = ofLittleEndian (littleEndian t m ++ [UInt8.ofNat (m / 256 ^ t)]) := by
          rw [← littleEndian_succ, ofLittleEndian_littleEndian_of_lt bound]
        have written := magnitude_eq (littleEndian t m) zero
        rw [← split] at written
        have positive : 0 < m := by
          rcases Nat.eq_zero_or_pos m with rfl | positive
          · rw [Nat.zero_div] at zero
            exact absurd rfl zero
          · exact positive
        generalize UInt8.ofNat (m / 256 ^ t) = c at zero written ⊢
        simp only [ne_eq, sign_clear_iff, ite_not]
        cases fNegative with
        | true =>
            have negative : -(m : Int) < 0 := by omega
            simp only [if_true, getvch, Int.natAbs_neg, Int.natAbs_natCast, if_pos negative, written]
            by_cases small : c < 0x80 <;> simp [small]
        | false =>
            have nonneg : ¬ (m : Int) < 0 := by omega
            simp only [Bool.false_eq_true, if_false, getvch, Int.natAbs_natCast, if_neg nonneg, written]
            by_cases small : c < 0x80 <;> simp [small]

theorem mpi2bn_mpiLoop (fNegative : Bool) (n : UInt64) :
    mpi2bn (mpiLoop fNegative 8 true n) = if fNegative then -(n.toNat : Int) else n.toNat := by
  have bytes := mpiLoop_eq fNegative (Nat.le_refl 8) (show n.toNat < 256 ^ 8 from n.toNat_lt)
  rw [show n.toNat * 256 ^ (8 - 8) = n.toNat from Nat.mul_one _, UInt64.ofNat_toNat] at bytes
  rw [mpi2bn, bytes, List.reverse_reverse, setvch_getvch]

theorem setuint64_eq (n : UInt64) : setuint64 n = n.toNat := mpi2bn_mpiLoop false n

theorem setint64_eq (sn : Int64) : setint64 sn = sn.toInt := by
  have lower := Int64.le_toInt sn
  have upper := Int64.toInt_lt sn
  rw [setint64]
  by_cases negative : sn < 0
  · have below : sn.toInt < 0 := Int64.lt_iff_toInt_lt.mp negative
    have magnitude : (-(sn + 1)).toInt = -(sn.toInt + 1) := by
      rw [Int64.toInt_neg, Int64.toInt_add, show Int64.toInt 1 = 1 from rfl]
      have sum : (sn.toInt + 1).bmod (2 ^ 64) = sn.toInt + 1 := Int.bmod_eq_of_le (by omega) (by omega)
      rw [sum]
      exact Int.bmod_eq_of_le (by omega) (by omega)
    have unsigned : ((-(sn + 1)).toUInt64.toNat : Int) = (-(sn + 1)).toInt := toUInt64_toNat (by omega)
    have value : (((-(sn + 1)).toUInt64 + 1).toNat : Int) = -sn.toInt := by
      rw [UInt64.toNat_add, show (1 : UInt64).toNat = 1 from rfl]
      omega
    rw [if_pos negative, mpi2bn_mpiLoop, if_pos rfl, value, Int.neg_neg]
  · have nonneg : 0 ≤ sn.toInt := Int.not_lt.mp fun less => negative (Int64.lt_iff_toInt_lt.mpr less)
    rw [if_neg negative, mpi2bn_mpiLoop, if_neg (by decide), toUInt64_toNat nonneg]

end CBigNum

/-! ## What is read for an item -/

namespace CScript

theorem pushOperand_littleEndian (opcode : UInt8) {width : Nat} {vch : Bytes} (fits : vch.length < 256 ^ width)
    (rest : Bytes) :
    pushOperand opcode width (littleEndian width vch.length ++ (vch ++ rest)) = some (opcode, vch, rest) := by
  have field := littleEndian_length width vch.length
  have enough : ¬ (littleEndian width vch.length ++ (vch ++ rest)).length < width := by
    rw [List.length_append, field]
    omega
  have whole : ¬ (vch ++ rest).length < vch.length := by
    rw [List.length_append]
    omega
  rw [pushOperand, if_neg enough]
  simp only [List.take_left' field, List.drop_left' field, ofLittleEndian_littleEndian_of_lt fits]
  rw [if_neg whole, List.take_left, List.drop_left]

/-- The opcode that `operator<<` chooses for data. -/
def pushOpcode (vch : Bytes) : UInt8 :=
  if vch.length < OP_PUSHDATA1.toNat then UInt8.ofNat vch.length
  else if vch.length ≤ 0xff then OP_PUSHDATA1
  else if vch.length ≤ 0xffff then OP_PUSHDATA2
  else OP_PUSHDATA4

theorem pushOpcode_le (vch : Bytes) : pushOpcode vch ≤ OP_PUSHDATA4 := by
  unfold pushOpcode
  split_ifs with direct
  · have small : vch.length < 76 := direct
    rw [UInt8.le_iff_toNat_le, UInt8.toNat_ofNat', Nat.mod_eq_of_lt (by omega)]
    show vch.length ≤ 78
    omega
  all_goals decide

theorem pushData_wellFormed {vch : Bytes} (fits : vch.length < 2 ^ 32) :
    Token.WellFormed ⟨pushOpcode vch, vch, pushData vch⟩ := by
  intro rest
  simp only [pushOpcode, pushData]
  split_ifs with direct one two
  · have small : vch.length < 76 := direct
    have value : (UInt8.ofNat vch.length).toNat = vch.length := by
      rw [UInt8.toNat_ofNat', Nat.mod_eq_of_lt (by omega)]
    have below : UInt8.ofNat vch.length < OP_PUSHDATA1 := UInt8.lt_iff_toNat_lt.mpr (by rw [value]; exact direct)
    have whole : ¬ (vch ++ rest).length < vch.length := by
      rw [List.length_append]
      omega
    rw [List.cons_append, getOp, if_pos below, value, if_neg whole, List.take_left, List.drop_left]
  · have small : vch.length < 256 ^ 1 := Nat.lt_succ_of_le one
    exact pushOperand_littleEndian OP_PUSHDATA1 small rest
  · rw [List.cons_append, List.append_assoc]
    have small : vch.length < 256 ^ 2 := Nat.lt_succ_of_le two
    exact pushOperand_littleEndian OP_PUSHDATA2 small rest
  · rw [List.cons_append, List.append_assoc]
    have small : vch.length < 256 ^ 4 := fits
    exact pushOperand_littleEndian OP_PUSHDATA4 small rest

theorem opcode_wellFormed {opcode : UInt8} (plain : opcode = OP_0 ∨ OP_PUSHDATA4 < opcode) :
    Token.WellFormed ⟨opcode, [], [opcode]⟩ := by
  intro rest
  rcases plain with rfl | above
  · rfl
  · have large : 78 < opcode.toNat := UInt8.lt_iff_toNat_lt.mp above
    have push (other : UInt8) (small : other.toNat ≤ 78) : opcode ≠ other := by
      rintro rfl
      omega
    have direct : ¬ opcode < OP_PUSHDATA1 := by
      rw [UInt8.lt_iff_toNat_lt]
      exact Nat.not_lt.mpr (Nat.le_trans (by decide : OP_PUSHDATA1.toNat ≤ 78) large.le)
    simp only [List.singleton_append, getOp, if_neg direct, if_neg (push OP_PUSHDATA1 (by decide)),
      if_neg (push OP_PUSHDATA2 (by decide)), if_neg (push OP_PUSHDATA4 (by decide))]

theorem castToBigNum_getvch (n : Int) :
    castToBigNum (CBigNum.getvch n) = if n.natAbs < 2 ^ 31 then .ok n else .error bigNumError := by
  have short := CBigNum.getvch_length_le_iff n 3
  rw [castToBigNum, CBigNum.setvch_getvch, CBigNum.setvch_getvch, show nMaxNumSize = 4 from rfl]
  by_cases small : n.natAbs < 2 ^ 31
  · rw [if_pos small, if_neg (Nat.not_lt.mpr (short.mpr small))]
  · rw [if_neg small, if_pos (Nat.not_le.mp (mt short.mp small))]

section

variable [ScriptDigests] {state : ScriptState}

theorem execute_data (verifier : Verifier) (executes : state.fExec) {opcode : UInt8} (push : opcode ≤ OP_PUSHDATA4)
    (vch : Bytes) : state.execute verifier opcode vch = pure { state with stack := vch :: state.stack } :=
  if_pos ⟨executes, push⟩

theorem execute_number (verifier : Verifier) (executes : state.fExec) {opcode : UInt8}
    (number : opcode = OP_1NEGATE ∨ (OP_1 ≤ opcode ∧ opcode ≤ OP_16)) :
    state.execute verifier opcode [] =
      pure { state with stack := CBigNum.getvch (opcode.toNat - (OP_1.toNat - 1 : Int)) :: state.stack } := by
  have cases : ¬ opcode ≤ OP_PUSHDATA4 ∧ switchCase opcode = .OP_1NEGATE := by
    revert number
    exact forall_byte (p := fun opcode => (opcode = OP_1NEGATE ∨ (OP_1 ≤ opcode ∧ opcode ≤ OP_16)) →
      ¬ opcode ≤ OP_PUSHDATA4 ∧ switchCase opcode = .OP_1NEGATE) (by decide +kernel) opcode
  rw [ScriptState.execute, if_neg fun push => cases.1 push.2, if_pos (.inl executes), ScriptState.switch, cases.2]
  rfl

end

theorem pushesNumber_data (n : Int) :
    PushesNumber n ⟨pushOpcode (CBigNum.getvch n), CBigNum.getvch n, pushData (CBigNum.getvch n)⟩ :=
  ⟨_, fun verifier _ executes => execute_data verifier executes (pushOpcode_le _) _, CBigNum.setvch_getvch n,
    castToBigNum_getvch n⟩

theorem pushesNumber_opcode {n : Int} (small : n = -1 ∨ (1 ≤ n ∧ n ≤ 16)) :
    let opcode := UInt8.ofNat (n + (OP_1.toNat - 1 : Int)).toNat
    OP_PUSHDATA4 < opcode ∧ PushesNumber n ⟨opcode, [], [opcode]⟩ := by
  have one : (OP_1.toNat - 1 : Int) = 80 := rfl
  have value : ((UInt8.ofNat (n + 80).toNat).toNat : Int) = n + 80 := by
    rw [UInt8.toNat_ofNat']
    omega
  have number : UInt8.ofNat (n + 80).toNat = OP_1NEGATE ∨
      (OP_1 ≤ UInt8.ofNat (n + 80).toNat ∧ UInt8.ofNat (n + 80).toNat ≤ OP_16) := by
    rcases small with rfl | ⟨lower, upper⟩
    · exact .inl rfl
    · refine .inr ⟨UInt8.le_iff_toNat_le.mpr ?_, UInt8.le_iff_toNat_le.mpr ?_⟩
      · show 81 ≤ _
        omega
      · show _ ≤ 96
        omega
  have above : OP_PUSHDATA4 < UInt8.ofNat (n + 80).toNat := by
    rw [UInt8.lt_iff_toNat_lt]
    show 78 < _
    omega
  rw [one]
  refine ⟨above, CBigNum.getvch n, fun verifier state executes => ?_, CBigNum.setvch_getvch n, castToBigNum_getvch n⟩
  have run := execute_number verifier executes number
  rwa [one, value, show n + 80 - 80 = n by omega] at run

theorem Item.readAs {item : Item} (appendable : item.Appendable) :
    ∃ token : Token, token.bytes = item.bytes ∧ token.WellFormed ∧ item.ReadAs token := by
  have fits (n : Int) (bounded : n.natAbs < 256 ^ 8) : (CBigNum.getvch n).length < 2 ^ 32 :=
    Nat.lt_of_le_of_lt (CBigNum.getvch_length_le bounded) (by decide)
  cases item with
  | operation opcode => exact ⟨_, rfl, opcode_wellFormed appendable, rfl, rfl⟩
  | data vch => exact ⟨_, rfl, pushData_wellFormed appendable, pushOpcode_le vch, rfl⟩
  | signed n =>
      have lower := Int64.le_toInt n
      have upper := Int64.toInt_lt n
      by_cases small : n.toInt = -1 ∨ (1 ≤ n.toInt ∧ n.toInt ≤ 16)
      · obtain ⟨above, pushes⟩ := pushesNumber_opcode small
        exact ⟨_, (if_pos small).symm, opcode_wellFormed (.inr above), pushes⟩
      · refine ⟨_, ?_, pushData_wellFormed (fits n.toInt (by omega)), pushesNumber_data n.toInt⟩
        show _ = pushInt64 n
        rw [pushInt64, if_neg small, CBigNum.setint64_eq]
  | unsigned n =>
      have upper := n.toNat_lt
      by_cases small : 1 ≤ n.toNat ∧ n.toNat ≤ 16
      · obtain ⟨above, pushes⟩ := pushesNumber_opcode (.inr (by omega : (1 : Int) ≤ n.toNat ∧ (n.toNat : Int) ≤ 16))
        refine ⟨_, ?_, opcode_wellFormed (.inr above), pushes⟩
        show _ = pushUInt64 n
        rw [pushUInt64, if_pos small]
        rfl
      · refine ⟨_, ?_, pushData_wellFormed (fits n.toNat (by omega)), pushesNumber_data n.toNat⟩
        show _ = pushUInt64 n
        rw [pushUInt64, if_neg small, CBigNum.setuint64_eq]

theorem build_eq (items : List Item) : build items = items.flatMap Item.bytes := by
  have append (script : CScript) : items.foldl (fun script item => script ++ item.bytes) script =
      script ++ items.flatMap Item.bytes := by
    induction items generalizing script with
    | nil => simp
    | cons item items ih => rw [List.foldl_cons, ih, List.flatMap_cons, List.append_assoc]
  exact append []

/-- Iterating GetOp over a script that has been built gives the items back, and ends where the script does. -/
theorem tokens_build {items : List Item} (appendable : ∀ item ∈ items, item.Appendable) :
    List.Forall₂ Item.ReadAs items (build items).tokens ∧ (build items).unparsed = [] := by
  have parsed : ∃ tokens, Parses (build items) tokens [] ∧ List.Forall₂ Item.ReadAs items tokens := by
    rw [build_eq]
    induction items with
    | nil => exact ⟨[], .stop rfl, .nil⟩
    | cons item items ih =>
        obtain ⟨tokens, parsed, reads⟩ := ih fun other member => appendable other (by simp [member])
        obtain ⟨token, bytes, wellFormed, read⟩ := Item.readAs (appendable item (by simp))
        refine ⟨token :: tokens, ?_, .cons read reads⟩
        rw [List.flatMap_cons, ← bytes]
        exact .step wellFormed parsed
  obtain ⟨tokens, parsed, reads⟩ := parsed
  obtain ⟨same, rest⟩ := parsed.tokens_eq
  rw [same, rest]
  exact ⟨reads, rfl⟩

theorem tokens_build_sample :
    List.Forall₂ Item.ReadAs [.signed (-1), .data [7, 8], .operation OP_CHECKSIG, .unsigned 0xffffffffffffffff]
        (build [.signed (-1), .data [7, 8], .operation OP_CHECKSIG, .unsigned 0xffffffffffffffff]).tokens ∧
      (build [.signed (-1), .data [7, 8], .operation OP_CHECKSIG, .unsigned 0xffffffffffffffff]).unparsed = [] :=
  tokens_build (by simp [Item.Appendable, OP_PUSHDATA4, OP_CHECKSIG])

/-- CastToBigNum refuses five bytes, and the opcode of a push takes what is appended next for its data. -/
theorem tokens_build_fails :
    (build [.signed 2147483648]).tokens = [⟨5, [0, 0, 0, 0x80, 0], [5, 0, 0, 0, 0x80, 0]⟩] ∧
      castToBigNum [0, 0, 0, 0x80, 0] ≠ .ok 2147483648 ∧
      (build [.operation OP_PUSHDATA1, .operation OP_DUP]).tokens = [] := by
  decide

end CScript

end BitCrystal
